import Ucorf.HproseReads
import Ucorf.HproseTransparency

/-!
# What a request makes the service allocate

The length in front of a list goes through `atoi` into `resize` before any element is
looked at. Here the reads keep a log of these calls beside what they return, and a request
is decoded within its own size exactly when every length that is come to is.
-/
namespace Ucorf.HproseRequests

open Ucorf.Message
open Ucorf.Decimal
open Ucorf.HproseProtocol
open Ucorf.HproseService
open Ucorf.HproseRoundTrip
open Ucorf.HproseTransparency
open Ucorf.HproseReads

/-- A call of `resize`: its argument as a `size_t`, and the bytes that the buffer still has. -/
structure Resize where
  count : Nat
  left : Nat
  deriving DecidableEq, Repr

section Recording

/-- A reading with the resizes that it made, the first one first. -/
abbrev Recorded (α : Type) := List Resize × Except StdException α

variable {α : Type} (default : α) (record : α → Buffer → Recorded (Bool × α × Buffer))

def recordElems : Nat → Buffer → Recorded (Option (List α) × Buffer)
  | 0, b => ([], .ok (some [], b))
  | n + 1, b =>
    match record default b with
    | (log, .error e) => (log, .error e)
    | (log, .ok (false, _, b)) => (log, .ok (none, b))
    | (log, .ok (true, x, b)) =>
      match recordElems n b with
      | (log', .error e) => (log ++ log', .error e)
      | (log', .ok (xs, b)) => (log ++ log', .ok (xs.map (x :: ·), b))

def recordVector' (target : List α) (b : Buffer) : Recorded (Bool × List α × Buffer) :=
  match b.gets tagList with
  | (false, b) => ([], .ok (false, target, b))
  | (true, b) =>
    let (lenS, b) := b.readUntil tagOpenbrace
    if lenS.isEmpty then
      match b.gets tagClosebrace with
      | (true, b) => ([], .ok (true, [], b))
      | (false, b) => ([], .ok (false, target, b))
    else
      let len := atoi lenS
      let resize : Resize := ⟨(len % 2 ^ 64).toNat, b.rest.length⟩
      if len < 0 then ([resize], .error .lengthError)
      else
        match recordElems default record len.toNat b with
        | (log, .error e) => (resize :: log, .error e)
        | (log, .ok (none, b)) => (resize :: log, .ok (false, target, b))
        | (log, .ok (some c, b)) =>
          match b.gets tagClosebrace with
          | (true, b) => (resize :: log, .ok (true, c, b))
          | (false, b) => (resize :: log, .ok (false, target, b))

def recordVector (target : List α) (b : Buffer) : Recorded (Bool × List α × Buffer) :=
  match recordVector' default record target b with
  | (log, r) => (log, b.sentry r)

def recordElem : (e : Elem) → e.Val → Buffer → Recorded (Bool × e.Val × Buffer)
  | .integer t => fun target b => ([], t.read target b)
  | .string => fun target b => ([], readString target false b)
  | .vector e => recordVector e.default (recordElem e)

def recordTy : (t : Ty) → t.Val → Buffer → Recorded (Bool × t.Val × Buffer)
  | .bool => fun target b => ([], readBool target b)
  | .elem e => recordElem e

def recordArgs : (ts : List Ty) → Buffer → Recorded (Option (Vals ts) × Buffer)
  | [], reader => ([], .ok (some (), reader))
  | t :: ts, reader =>
    match recordTy t t.default reader with
    | (log, .error e) => (log, .error e)
    | (log, .ok (false, _, reader)) => (log, .ok (none, reader))
    | (log, .ok (true, arg, reader)) =>
      match recordArgs ts reader with
      | (log', .error e) => (log ++ log', .error e)
      | (log', .ok (args, reader)) => (log ++ log', .ok (args.map (arg, ·), reader))

/-- The entry that `Call` finds for a method. -/
def entryOf {σ : Type} (functions : Functions σ) (method : Bytes) : Option (Callee σ) :=
  match functions[method]? with
  | some callee => some callee
  | none => functions[anyMethod]?

/-- The resizes of `CallMethod`, all of them made while the arguments are read. -/
def resizes {σ : Type} (functions : Functions σ) (requestData : Bytes) : List Resize :=
  match Buffer.get ⟨requestData, 0⟩ with
  | (flag, reader) =>
    if flag = some tagCall then
      match readString [] true reader with
      | .ok (true, method, reader) =>
        match entryOf functions method with
        | some callee => (recordArgs callee.args reader).1
        | none => []
      | _ => []
    else []

end Recording

section Erasure

variable {α : Type} {default : α} {read : α → Buffer → Reading α}
  {record : α → Buffer → Recorded (Bool × α × Buffer)}

/-- The record is beside the reading and does not change it. -/
theorem recordElems_snd (h : ∀ target b, (record target b).2 = read target b) (n : Nat)
    (b : Buffer) :
    (recordElems default record n b).2 = readElems default read n b := by
  induction n generalizing b with
  | zero => rfl
  | succ n ih =>
    rw [recordElems, readElems, ← h default b]
    generalize record default b = p
    obtain ⟨log, _ | ⟨_ | _, x, b⟩⟩ := p
    · rfl
    · rfl
    · dsimp only
      rw [← ih b]
      generalize recordElems default record n b = p
      obtain ⟨log', _ | ⟨xs, b⟩⟩ := p
      · rfl
      · rfl

/-- A vector is read as without a record. -/
theorem recordVector_snd (h : ∀ target b, (record target b).2 = read target b) (target : List α)
    (b : Buffer) :
    (recordVector default record target b).2 = readVector default read target b := by
  unfold recordVector readVector
  dsimp only
  apply congrArg b.sentry
  unfold recordVector' readVector'
  generalize b.gets tagList = p
  obtain ⟨_ | _, b⟩ := p
  · rfl
  dsimp only
  generalize b.readUntil tagOpenbrace = p
  obtain ⟨lenS, b⟩ := p
  dsimp only
  by_cases hempty : lenS.isEmpty = true
  · rw [if_pos hempty, if_pos hempty]
    generalize b.gets tagClosebrace = p
    obtain ⟨_ | _, b⟩ := p
    · rfl
    · rfl
  · rw [if_neg hempty, if_neg hempty]
    by_cases hneg : atoi lenS < 0
    · rw [if_pos hneg, if_pos hneg]
    · rw [if_neg hneg, if_neg hneg, ← recordElems_snd h]
      generalize recordElems default record (atoi lenS).toNat b = p
      obtain ⟨log, _ | ⟨_ | c, b⟩⟩ := p
      · rfl
      · rfl
      · dsimp only
        generalize b.gets tagClosebrace = p
        obtain ⟨_ | _, b⟩ := p
        · rfl
        · rfl

theorem recordElem_snd (e : Elem) (target : e.Val) (b : Buffer) :
    (recordElem e target b).2 = e.read target b := by
  induction e generalizing b with
  | integer t => rfl
  | string => rfl
  | vector e ih => exact recordVector_snd ih target b

/-- Without the log a recorded read is the read. -/
theorem recordTy_snd (t : Ty) (target : t.Val) (b : Buffer) :
    (recordTy t target b).2 = t.read target b := by
  cases t with
  | bool => rfl
  | elem e => exact recordElem_snd e target b

/-- So are all arguments of a call. -/
theorem recordArgs_snd (ts : List Ty) (reader : Buffer) :
    (recordArgs ts reader).2 = readArgs ts reader := by
  induction ts generalizing reader with
  | nil => rfl
  | cons t ts ih =>
    rw [recordArgs, readArgs, ← recordTy_snd t t.default reader]
    generalize recordTy t t.default reader = p
    obtain ⟨log, _ | ⟨_ | _, arg, reader⟩⟩ := p
    · rfl
    · rfl
    · dsimp only
      rw [← ih reader]
      generalize recordArgs ts reader = p
      obtain ⟨log', _ | ⟨args, reader⟩⟩ := p
      · rfl
      · rfl

end Erasure

section Lengths

/-- The lengths of the elements, as far as the reads of them come. -/
def ElemsSized (sized : Bytes → Prop) (width : Bytes → Option Nat) : Nat → Bytes → Prop
  | 0, _ => True
  | n + 1, s => sized s ∧ ∀ m, width s = some m → ElemsSized sized width n (s.drop m)

def VectorSized (sized : Bytes → Prop) (width : Bytes → Option Nat) : Bytes → Prop
  | [] => True
  | v :: r => v = tagList → ∀ k, Buffer.untilDelim tagOpenbrace r = some k →
    0 ≤ atoi (r.take k) ∧ (atoi (r.take k)).toNat ≤ (r.drop k).length ∧
      ElemsSized sized width (atoi (r.take k)).toNat (r.drop k)

/-- Every list at the front of the bytes has a length between zero and the number of bytes behind
its brace. -/
def ElemSized : Elem → Bytes → Prop
  | .integer _ | .string => fun _ => True
  | .vector e => VectorSized (ElemSized e) (elemWidth e)

def TySized : Ty → Bytes → Prop
  | .bool => fun _ => True
  | .elem e => ElemSized e

def ArgsSized : List Ty → Bytes → Prop
  | [], _ => True
  | t :: ts, s => TySized t s ∧ ∀ m, tyWidth t s = some m → ArgsSized ts (s.drop m)

/-- A recorded reading that stays within the buffer and does not throw. -/
def Modest {α : Type} (p : Recorded α) : Prop := (∀ z ∈ p.1, z.count ≤ z.left) ∧ ∃ v, p.2 = .ok v

end Lengths

section Sizes

variable {α : Type} {default : α} {read : α → Buffer → Reading α}
  {record : α → Buffer → Recorded (Bool × α × Buffer)}
  {width : Bytes → Option Nat} {sized : Bytes → Prop}

theorem modest_nil {β : Type} (v : β) : Modest ([], .ok v) := ⟨by simp, v, rfl⟩

/-- A reading that throws is not a modest one. -/
theorem modest_error {β : Type} {log : List Resize} {e : StdException} :
    ¬ Modest ((log, .error e) : Recorded β) := by
  rintro ⟨-, v, hv⟩
  cases hv

/-- What is read plays no part, only what is reserved. -/
theorem modest_ok {β γ : Type} {log : List Resize} (v : β) (w : γ) :
    Modest ((log, .ok v) : Recorded β) ↔ Modest ((log, .ok w) : Recorded γ) :=
  ⟨fun h => ⟨h.1, w, rfl⟩, fun h => ⟨h.1, v, rfl⟩⟩

/-- One reading after the other: each has to be modest. -/
theorem modest_append {β γ : Type} {log log' : List Resize} {v : β} {r : Except StdException γ} :
    Modest (log ++ log', r) ↔ Modest ((log, .ok v) : Recorded β) ∧ Modest (log', r) := by
  unfold Modest
  simp only [List.forall_mem_append, Except.ok.injEq, exists_eq', and_true]
  exact and_assoc

theorem modest_cons {γ : Type} {z : Resize} {log : List Resize} {r : Except StdException γ} :
    Modest (z :: log, r) ↔ z.count ≤ z.left ∧ Modest (log, r) := by
  unfold Modest
  simp only [List.forall_mem_cons]
  exact and_assoc

/-- What a type needs of its bytes to be read within them. -/
def Sizes (record : α → Buffer → Recorded (Bool × α × Buffer)) (sized : Bytes → Prop) : Prop :=
  ∀ target b, Modest (record target b) ↔ sized b.rest

/-- The elements of a vector are modest when each of them is, where it stands. -/
theorem elems_sizes (hread : Takes read width)
    (herase : ∀ target b, (record target b).2 = read target b)
    (h : Sizes record sized) (default : α) (n : Nat) (b : Buffer) :
    Modest (recordElems default record n b) ↔ ElemsSized sized width n b.rest := by
  induction n generalizing b with
  | zero => exact iff_of_true (modest_nil _) trivial
  | succ n ih =>
    have hout := hread default b
    have hsized := h default b
    have hsame := herase default b
    rw [recordElems, ElemsSized]
    generalize record default b = p at hsized hsame
    generalize width b.rest = w at hout
    generalize read default b = r at hout hsame
    obtain ⟨log, r'⟩ := p
    obtain rfl : r' = r := hsame
    cases hout with
    | taken m v =>
      have hrec := ih (b.skip m)
      have hrest : (b.skip m).rest = b.rest.drop m := Buffer.rest_skip m
      have hnext : (∀ k, some m = some k → ElemsSized sized width n (b.rest.drop k)) ↔
          ElemsSized sized width n (b.rest.drop m) :=
        ⟨fun hall => hall m rfl, fun hm k hk => Option.some.inj hk ▸ hm⟩
      rw [← hsized, hnext, ← hrest, ← hrec]
      dsimp only
      generalize recordElems default record n (b.skip m) = p
      obtain ⟨log', _ | ⟨xs, b'⟩⟩ := p
      · exact modest_append
      · exact modest_append.trans (and_congr_right fun _ => modest_ok _ _)
    | refused =>
      have hnone : ∀ k, (none : Option Nat) = some k → ElemsSized sized width n (b.rest.drop k) :=
        fun k hk => nomatch hk
      rw [← hsized, and_iff_left hnone]
      exact modest_ok _ _
    | thrown e =>
      rw [← hsized]
      exact iff_of_false modest_error fun hand => modest_error hand.1

/-- Going back after a failure reserves nothing. -/
theorem modest_recordVector (target : List α) (b : Buffer) :
    Modest (recordVector default record target b) ↔
    Modest (recordVector' default record target b) := by
  rw [recordVector]
  generalize recordVector' default record target b = p
  obtain ⟨log, _ | ⟨_ | _, v, b'⟩⟩ := p
  · exact iff_of_false modest_error modest_error
  · exact modest_ok _ _
  · exact modest_ok _ _

/-- A length that is not negative goes into `size_t` as it is. -/
theorem atoi_size {s : Bytes} (h : 0 ≤ atoi s) : (atoi s % 2 ^ 64).toNat = (atoi s).toNat := by
  have hlt : atoi s < 2 ^ 31 := by
    have hbmod := Int.bmod_lt (x := strtoll s) (m := 2 ^ 32) (by decide)
    rw [atoi, narrow]
    omega
  omega

/-- A vector reserves what its length says, so the bytes have to be there. -/
theorem vector_sizes (hread : Takes read width)
    (herase : ∀ target b, (record target b).2 = read target b)
    (h : Sizes record sized) : Sizes (recordVector default record) (VectorSized sized width) := by
  intro target b
  rw [modest_recordVector, recordVector']
  by_cases htag : b.rest.head? = some tagList
  · obtain ⟨r, hrest⟩ := List.head?_eq_some_iff.mp htag
    have hskip := Buffer.rest_skip_cons hrest
    rw [gets_head htag, hrest, VectorSized]
    dsimp only
    cases hk : Buffer.untilDelim tagOpenbrace r with
    | none =>
      rw [readUntil_none (hskip ▸ hk)]
      dsimp only
      rw [if_pos (show ([] : Bytes).isEmpty = true from rfl)]
      refine iff_of_true ?_ (fun _ k hsome => nomatch hsome)
      generalize (b.skip 1).gets tagClosebrace = p
      obtain ⟨_ | _, b'⟩ := p
      · exact modest_nil _
      · exact modest_nil _
    | some k =>
      obtain ⟨huntil, hne, hbehind⟩ := readUntil_behind hrest hk
      rw [huntil]
      dsimp only
      rw [hne, if_neg Bool.false_ne_true]
      have hone : (tagList = tagList → ∀ j, some k = some j → 0 ≤ atoi (r.take j) ∧
            (atoi (r.take j)).toNat ≤ (r.drop j).length ∧
              ElemsSized sized width (atoi (r.take j)).toNat (r.drop j)) ↔
          0 ≤ atoi (r.take k) ∧ (atoi (r.take k)).toNat ≤ (r.drop k).length ∧
            ElemsSized sized width (atoi (r.take k)).toNat (r.drop k) :=
        ⟨fun hall => hall rfl k rfl, fun hkk _ j hj => Option.some.inj hj ▸ hkk⟩
      rw [hone]
      by_cases hneg : atoi (r.take k) < 0
      · rw [if_pos hneg]
        exact iff_of_false modest_error fun hand => absurd hand.1 (by omega)
      · rw [if_neg hneg]
        have helems :=
          elems_sizes hread herase h default (atoi (r.take k)).toNat ((b.skip 1).skip k)
        rw [hbehind] at helems ⊢
        have hpos : 0 ≤ atoi (r.take k) := by omega
        rw [and_iff_right hpos, ← helems, atoi_size hpos]
        generalize recordElems default record (atoi (r.take k)).toNat ((b.skip 1).skip k) = p
        obtain ⟨log, _ | ⟨_ | c, b'⟩⟩ := p
        · exact iff_of_false modest_error fun hand => modest_error hand.2
        · exact modest_cons.trans (and_congr_right fun _ => modest_ok _ _)
        · dsimp only
          generalize b'.gets tagClosebrace = p
          obtain ⟨_ | _, b''⟩ := p
          · exact modest_cons.trans (and_congr_right fun _ => modest_ok _ _)
          · exact modest_cons.trans (and_congr_right fun _ => modest_ok _ _)
  · obtain ⟨b', hb', hgets⟩ := gets_other htag
    rw [hgets]
    refine iff_of_true (modest_nil _) ?_
    cases hrest : b.rest with
    | nil => trivial
    | cons v r =>
      intro hv
      rw [hrest, hv] at htag
      exact absurd rfl htag

theorem sentry_returns {b : Buffer} {r : Reading α} (h : ∃ v, r = .ok v) :
    ∃ v, b.sentry r = .ok v := by
  obtain ⟨⟨_ | _, v, b'⟩, rfl⟩ := h
  · exact ⟨_, rfl⟩
  · exact ⟨_, rfl⟩

theorem int_returns (t : IntTy) (target : t.Val) (b : Buffer) : ∃ v, t.read target b = .ok v := by
  apply sentry_returns
  unfold IntTy.read'
  split
  · exact ⟨_, rfl⟩
  · split
    · exact ⟨_, rfl⟩
    · split
      · exact ⟨_, rfl⟩
      · split <;> exact ⟨_, rfl⟩

theorem bool_returns (target : Bool) (b : Buffer) : ∃ v, readBool target b = .ok v := by
  apply sentry_returns
  unfold readBool'
  split
  · exact ⟨_, rfl⟩
  · split
    · exact ⟨_, rfl⟩
    · split <;> exact ⟨_, rfl⟩

/-- A string is never resized before its bytes are there. -/
theorem string_returns (target : Bytes) (utf8 : Bool) (b : Buffer) :
    ∃ v, readString target utf8 b = .ok v := by
  apply sentry_returns
  unfold readString'
  split
  · exact ⟨_, rfl⟩
  · split
    · exact ⟨_, rfl⟩
    · split
      · exact ⟨_, rfl⟩
      · dsimp only
        split
        · split <;> exact ⟨_, rfl⟩
        · split
          · exact ⟨_, rfl⟩
          · split
            · exact ⟨_, rfl⟩
            · split <;> exact ⟨_, rfl⟩

/-- A reading that always returns and reserves nothing is modest. -/
theorem sizes_of_returns (h : ∀ target b, ∃ v, read target b = .ok v) :
    Sizes (fun target b => ([], read target b)) fun _ => True :=
  fun target b => iff_of_true ⟨by simp, h target b⟩ trivial

/-- By the nesting of the vectors. -/
theorem elem_sizes (e : Elem) : Sizes (recordElem e) (ElemSized e) := by
  induction e with
  | integer t => exact sizes_of_returns (int_returns t)
  | string => exact sizes_of_returns fun target b => string_returns target false b
  | vector e ih => exact vector_sizes (elem_takes e) (recordElem_snd e) ih

theorem ty_sizes (t : Ty) : Sizes (recordTy t) (TySized t) := by
  cases t with
  | bool => exact sizes_of_returns bool_returns
  | elem e => exact elem_sizes e

/-- The arguments are modest together when each is modest where it stands. -/
theorem args_sizes (ts : List Ty) (reader : Buffer) :
    Modest (recordArgs ts reader) ↔ ArgsSized ts reader.rest := by
  induction ts generalizing reader with
  | nil => exact iff_of_true (modest_nil _) trivial
  | cons t ts ih =>
    have hout := ty_takes t t.default reader
    have hsized := ty_sizes t t.default reader
    have hsame := recordTy_snd t t.default reader
    rw [recordArgs, ArgsSized]
    generalize recordTy t t.default reader = p at hsized hsame
    generalize tyWidth t reader.rest = w at hout
    generalize t.read t.default reader = r at hout hsame
    obtain ⟨log, r'⟩ := p
    obtain rfl : r' = r := hsame
    cases hout with
    | taken m v =>
      have hnext : (∀ k, some m = some k → ArgsSized ts (reader.rest.drop k)) ↔
          ArgsSized ts (reader.rest.drop m) :=
        ⟨fun hall => hall m rfl, fun hm k hk => Option.some.inj hk ▸ hm⟩
      rw [← hsized, hnext, ← Buffer.rest_skip, ← ih]
      dsimp only
      generalize recordArgs ts (reader.skip m) = p
      obtain ⟨log', _ | ⟨args, b'⟩⟩ := p
      · exact iff_of_false modest_error fun hand => modest_error hand.2
      · exact modest_append.trans (and_congr_right fun _ => modest_ok _ _)
    | refused =>
      have hnone : ∀ k, (none : Option Nat) = some k → ArgsSized ts (reader.rest.drop k) :=
        fun k hk => nomatch hk
      rw [← hsized, and_iff_left hnone]
      exact modest_ok _ _
    | thrown e =>
      rw [← hsized]
      exact iff_of_false modest_error fun hand => modest_error hand.1

end Sizes

section Requests

variable {σ : Type} {functions : Functions σ} {requestData rest method : Bytes} {reader : Buffer}
  {callee : Callee σ} {st : σ}

/-- The lengths that the arguments of a request come to, where it is a call. -/
def RequestSized (functions : Functions σ) (requestData : Bytes) : Prop :=
  ∀ rest method reader callee, requestData = tagCall :: rest →
    readString [] true ⟨requestData, 1⟩ = .ok (true, method, reader) →
      entryOf functions method = some callee →
    ArgsSized callee.args reader.rest

/-- The name was read, and so were the arguments of the function that is found under it. -/
def Decoded (functions : Functions σ) (requestData : Bytes) : Prop :=
  ∃ method reader, readString [] true ⟨requestData, 1⟩ = .ok (true, method, reader) ∧
    ∀ callee, entryOf functions method = some callee →
      ∃ args b, readArgs callee.args reader = .ok (some args, b)

/-- No container outgrows the buffer, nothing is thrown, and what cannot be decoded is answered with
the error. -/
structure DecodesSafely (functions : Functions σ) (requestData : Bytes) (st : σ) : Prop where
  bounded : ∀ z ∈ resizes functions requestData, z.count ≤ z.left
  returns : ∃ answer, callMethod functions requestData st = .ok answer ∧
    (requestData.head? = some tagCall → Decoded functions requestData ∨
      answer = ⟨errorArguments, st, []⟩)

/-- A name that has an entry is a call of the function there. -/
theorem call_entry (hentry : entryOf functions method = some callee) (reader : Buffer) (st : σ) :
    ∃ entry, call functions method reader st = callee.call entry reader st := by
  unfold call
  cases hfound : functions[method]? with
  | some found =>
    rw [entryOf, hfound] at hentry
    cases hentry
    exact ⟨method, rfl⟩
  | none =>
    rw [entryOf, hfound] at hentry
    simp only [hentry]
    exact ⟨anyMethod, rfl⟩

theorem call_no_entry (hentry : entryOf functions method = none) (reader : Buffer) (st : σ) :
    ∃ answer, call functions method reader st = .ok answer := by
  unfold call
  cases hfound : functions[method]? with
  | some found =>
    rw [entryOf, hfound] at hentry
    cases hentry
  | none =>
    rw [entryOf, hfound] at hentry
    simp only [hentry]
    exact ⟨_, rfl⟩

/-- A function is run, or the error is answered, unless a read throws. -/
theorem callee_returns (entry : Bytes) (st : σ) {p : Option (Vals callee.args) × Buffer}
    (hargs : readArgs callee.args reader = .ok p) :
    ∃ answer, callee.call entry reader st = .ok answer ∧
      ((∃ args b, readArgs callee.args reader = .ok (some args, b)) ∨
        answer = ⟨errorArguments, st, []⟩) := by
  obtain ⟨_ | args, b⟩ := p
  · rw [Callee.call, hargs]
    exact ⟨_, rfl, .inr rfl⟩
  · rw [Callee.call, hargs]
    exact ⟨_, rfl, .inl ⟨args, b, rfl⟩⟩

theorem callMethod_named
    (hname : readString [] true ⟨tagCall :: rest, 1⟩ = .ok (true, method, reader)) :
    callMethod functions (tagCall :: rest) st = call functions method reader st := by
  have htag : tagCall ≠ tagEnd := by decide
  have hget : Buffer.get ⟨tagCall :: rest, 0⟩ = (some tagCall, ⟨tagCall :: rest, 1⟩) := rfl
  simp only [callMethod, hget, Option.some.injEq, htag, if_false, if_true, hname]

/-- A call reserves what reading its arguments reserves. -/
theorem resizes_named (hname : readString [] true ⟨tagCall :: rest, 1⟩ = .ok (true, method, reader))
    (hentry : entryOf functions method = some callee) :
    resizes functions (tagCall :: rest) = (recordArgs callee.args reader).1 := by
  have hget : Buffer.get ⟨tagCall :: rest, 0⟩ = (some tagCall, ⟨tagCall :: rest, 1⟩) := rfl
  simp only [resizes, hget, if_true, hname, hentry]

/-- Only the tag of a call leads to a vector. -/
theorem safe_other (h : requestData.head? ≠ some tagCall) :
    DecodesSafely functions requestData st := by
  cases requestData with
  | nil => exact ⟨fun z hz => absurd hz List.not_mem_nil, _, rfl, fun hhead => absurd hhead h⟩
  | cons c rest =>
    have hget : Buffer.get ⟨c :: rest, 0⟩ = (some c, ⟨c :: rest, 1⟩) := rfl
    have hc : some c ≠ some tagCall := h
    constructor
    · simp only [resizes, hget, if_neg hc]
      exact fun z hz => absurd hz List.not_mem_nil
    · simp only [callMethod, hget, if_neg hc]
      split <;> exact ⟨_, rfl, fun hhead => absurd hhead h⟩

/-- Without a name no argument is read. -/
theorem safe_unnamed
    (hname : readString [] true ⟨tagCall :: rest, 1⟩ = .ok (false, method, reader)) :
    DecodesSafely functions (tagCall :: rest) st := by
  have hget : Buffer.get ⟨tagCall :: rest, 0⟩ = (some tagCall, ⟨tagCall :: rest, 1⟩) := rfl
  have htag : tagCall ≠ tagEnd := by decide
  constructor
  · simp [resizes, hget, hname]
  · simp only [callMethod, hget, Option.some.injEq, htag, if_false, if_true, hname]
    exact ⟨_, rfl, fun _ => .inr rfl⟩

/-- Without an entry no argument is read. -/
theorem safe_no_entry (hname : readString [] true ⟨tagCall :: rest, 1⟩ = .ok (true, method, reader))
    (hentry : entryOf functions method = none) : DecodesSafely functions (tagCall :: rest) st := by
  have hget : Buffer.get ⟨tagCall :: rest, 0⟩ = (some tagCall, ⟨tagCall :: rest, 1⟩) := rfl
  have hno : ∀ callee, entryOf functions method ≠ some callee := by simp [hentry]
  obtain ⟨answer, hanswer⟩ := call_no_entry hentry reader st
  constructor
  · simp [resizes, hget, hname, hentry]
  · rw [callMethod_named hname]
    exact ⟨answer, hanswer,
      fun _ => .inl ⟨method, reader, hname, fun callee hc => absurd hc (hno callee)⟩⟩

/-- With an entry the arguments decide. -/
theorem safe_entry (hname : readString [] true ⟨tagCall :: rest, 1⟩ = .ok (true, method, reader))
    (hentry : entryOf functions method = some callee) :
    DecodesSafely functions (tagCall :: rest) st ↔ Modest (recordArgs callee.args reader) := by
  obtain ⟨entry, hcall⟩ := call_entry hentry reader st
  constructor
  · rintro ⟨hbounded, answer, hanswer, -⟩
    rw [resizes_named hname hentry] at hbounded
    rw [callMethod_named hname, hcall, Callee.call, ← recordArgs_snd] at hanswer
    refine ⟨hbounded, ?_⟩
    generalize (recordArgs callee.args reader).2 = r at hanswer
    cases r with
    | error e => cases hanswer
    | ok v => exact ⟨v, rfl⟩
  · rintro ⟨hbounded, p, hp⟩
    rw [recordArgs_snd] at hp
    obtain ⟨answer, hanswer, hcases⟩ := callee_returns entry st hp
    constructor
    · rwa [resizes_named hname hentry]
    · rw [callMethod_named hname, hcall]
      refine ⟨answer, hanswer, fun _ => hcases.imp_left fun hread =>
        ⟨method, reader, hname, fun callee' hc => ?_⟩⟩
      rw [hentry] at hc
      cases hc
      exact hread

theorem sized_of_decodesSafely (h : DecodesSafely functions requestData st) :
    RequestSized functions requestData := by
  rintro rest method reader callee rfl hname hentry
  exact (args_sizes callee.args reader).mp ((safe_entry hname hentry).mp h)

theorem decodesSafely_of_sized (h : RequestSized functions requestData) (st : σ) :
    DecodesSafely functions requestData st := by
  by_cases hhead : requestData.head? = some tagCall
  · obtain ⟨rest, rfl⟩ := List.head?_eq_some_iff.mp hhead
    obtain ⟨⟨_ | _, method, reader⟩, hname⟩ := string_returns [] true ⟨tagCall :: rest, 1⟩
    · exact safe_unnamed hname
    · cases hentry : entryOf functions method with
      | none => exact safe_no_entry hname hentry
      | some callee =>
        have hsized := h rest method reader callee rfl hname hentry
        exact (safe_entry hname hentry).mpr ((args_sizes callee.args reader).mpr hsized)
  · exact safe_other hhead

/-- A request is decoded within its own size exactly when every list length that its arguments come
to is. -/
theorem decodesSafely_iff (functions : Functions σ) (requestData : Bytes) (st : σ) :
    DecodesSafely functions requestData st ↔ RequestSized functions requestData :=
  ⟨sized_of_decodesSafely, fun h => decodesSafely_of_sized h st⟩

def total : Callee Unit where
  args := [.elem (.vector (.integer .int32))]
  arity := by decide
  result := .elem (.integer .int32)
  fn := fun (l, _) st => (IntTy.int32.cast (l.foldl (fun n i => n + i.1) 0), st)

def totals : Functions Unit := (registerFunction ∅ (ascii "sum") total).2

theorem totals_sum : entryOf totals (ascii "sum") = some total := by
  simp [entryOf, totals, registerFunction]

/-- A call of "sum" with a list whose length is the given text. -/
def sumRequest (length : Bytes) : Bytes :=
  tagCall :: (stringCode (ascii "sum") true ++
    (tagList :: (length ++ [tagOpenbrace, tagClosebrace, tagEnd])))

theorem sum_not_sized {length : Bytes} (hbrace : tagOpenbrace ∉ length)
    (hlen : atoi (length ++ [tagOpenbrace]) < 0 ∨ 2 < atoi (length ++ [tagOpenbrace])) :
    ¬ RequestSized totals (sumRequest length) := by
  intro h
  obtain ⟨reader, hrest, hname⟩ : ∃ reader : Buffer,
      reader.rest = tagList :: (length ++ [tagOpenbrace, tagClosebrace, tagEnd]) ∧
        readString [] true ⟨sumRequest length, 1⟩ = .ok (true, ascii "sum", reader) :=
    name_read (all_ascii (by decide)) (by decide) _
  obtain ⟨hsized, -⟩ := h _ _ reader total rfl hname totals_sum
  rw [hrest] at hsized
  have hk : Buffer.untilDelim tagOpenbrace (length ++ [tagOpenbrace, tagClosebrace, tagEnd]) =
      some (length.length + 1) :=
    Buffer.untilDelim_append (by decide) hbrace _
  have hsplit : length ++ [tagOpenbrace, tagClosebrace, tagEnd] =
      (length ++ [tagOpenbrace]) ++ [tagClosebrace, tagEnd] := by
    simp
  obtain ⟨hpos, hle, -⟩ := hsized rfl _ hk
  rw [hsplit, List.take_left' (by simp)] at hpos hle
  rw [List.drop_left' (by simp)] at hle
  simp only [List.length_cons, List.length_nil] at hle
  omega

/-- One list of length -1, and one of length 1000000 with two bytes behind its brace. -/
theorem sum_not_safe : ¬ DecodesSafely totals (sumRequest [45, 49]) () ∧
    ¬ DecodesSafely totals (sumRequest [49, 48, 48, 48, 48, 48, 48]) () := by
  constructor
  · intro h
    exact sum_not_sized (by decide) (.inl (by decide)) (sized_of_decodesSafely h)
  · intro h
    exact sum_not_sized (by decide) (.inr (by decide)) (sized_of_decodesSafely h)

end Requests

end Ucorf.HproseRequests
