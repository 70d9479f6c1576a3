import Ucorf.HproseProtocol

/-!
# How much a read takes

Every value takes a number of bytes that only the bytes at `read_pos_` decide. A read
that succeeds moves past exactly these, and one that fails leaves the buffer and the
target as they were, however deep in a vector the failure is.
-/
namespace Ucorf.HproseReads

open Ucorf.Message
open Ucorf.Decimal
open Ucorf.HproseProtocol

section Widths

def intWidth : Bytes → Option Nat
  | [] => none
  | v :: r =>
    if 48 ≤ v ∧ v ≤ 57 then some 1
    else if v = tagInteger ∨ v = tagLong then some ((Buffer.untilDelim tagSemicolon r).getD 0 + 1)
    else none

def boolWidth : Bytes → Option Nat
  | [] => none
  | v :: _ => if v = tagTrue ∨ v = tagFalse then some 1 else none

def stringWidth : Bytes → Option Nat
  | [] => none
  | v :: r =>
    if v = tagEmpty then some 1
    else if v ≠ tagString ∧ v ≠ tagBytes then none
    else
      match Buffer.untilDelim tagQuote r with
      | none => none
      | some k =>
        if 0 < atoi (r.take k) ∧ (r.drop k)[(atoi (r.take k)).toNat]? = some tagQuote then
          some (k + (atoi (r.take k)).toNat + 2)
        else none

def elemsWidth (width : Bytes → Option Nat) : Nat → Bytes → Option Nat
  | 0, _ => some 0
  | n + 1, s =>
    match width s with
    | none => none
    | some m => (elemsWidth width n (s.drop m)).map (m + ·)

def vectorWidth (width : Bytes → Option Nat) : Bytes → Option Nat
  | [] => none
  | v :: r =>
    if v ≠ tagList then none
    else
      match Buffer.untilDelim tagOpenbrace r with
      | none => if r.head? = some tagClosebrace then some 2 else none
      | some k =>
        if atoi (r.take k) < 0 then none
        else
          match elemsWidth width (atoi (r.take k)).toNat (r.drop k) with
          | none => none
          | some m => if (r.drop k)[m]? = some tagClosebrace then some (k + m + 2) else none

def elemWidth : Elem → Bytes → Option Nat
  | .integer _ => intWidth
  | .string => stringWidth
  | .vector e => vectorWidth (elemWidth e)

def tyWidth : Ty → Bytes → Option Nat
  | .bool => boolWidth
  | .elem e => elemWidth e

end Widths

section Bounds

/-- A value takes at least one byte and none that is not there. -/
def Bounded (width : Bytes → Option Nat) : Prop := ∀ s n, width s = some n → 0 < n ∧ n ≤ s.length

/-- The delimiter is among the bytes that are counted. -/
theorem untilDelim_le {c : UInt8} {s : Bytes} {k : Nat} (h : Buffer.untilDelim c s = some k) :
    0 < k ∧ k ≤ s.length := by
  induction s generalizing k with
  | nil => cases h
  | cons v r ih =>
    rw [Buffer.untilDelim] at h
    split at h
    · cases h
      simp
    · obtain ⟨m, hm, rfl⟩ := Option.map_eq_some_iff.mp h
      have hle := (ih hm).2
      rw [List.length_cons]
      omega

theorem lt_of_getElem? {s : Bytes} {i : Nat} {c : UInt8} (h : s[i]? = some c) : i < s.length :=
  (List.getElem?_eq_some_iff.mp h).1

/-- An integer is no longer than the text. -/
theorem int_bounded : Bounded intWidth := by
  intro s n h
  cases s with
  | nil => cases h
  | cons v r =>
    rw [intWidth] at h
    split at h
    · cases h
      simp
    · split at h
      · cases h
        cases hk : Buffer.untilDelim tagSemicolon r with
        | none => simp
        | some k =>
          have hle := (untilDelim_le hk).2
          rw [List.length_cons, Option.getD_some]
          omega
      · cases h

theorem bool_bounded : Bounded boolWidth := by
  intro s n h
  cases s with
  | nil => cases h
  | cons v r =>
    rw [boolWidth] at h
    split at h
    · cases h
      simp
    · cases h

/-- A string is no longer than the text. -/
theorem string_bounded : Bounded stringWidth := by
  intro s n h
  cases s with
  | nil => cases h
  | cons v r =>
    simp only [stringWidth] at h
    split at h
    · cases h
      simp
    · split at h
      · cases h
      · split at h
        · cases h
        · rename_i k hk
          split at h
          · rename_i hquote
            cases h
            have hlt := lt_of_getElem? hquote.2
            rw [List.length_drop] at hlt
            rw [List.length_cons]
            omega
          · cases h

/-- A vector is no longer than the text. -/
theorem vector_bounded {width : Bytes → Option Nat} : Bounded (vectorWidth width) := by
  intro s n h
  cases s with
  | nil => cases h
  | cons v r =>
    simp only [vectorWidth] at h
    split at h
    · cases h
    · split at h
      · split at h
        · rename_i hclose
          cases h
          have hne : r ≠ [] := by
            intro hnil
            rw [hnil] at hclose
            cases hclose
          have hpos := List.length_pos_iff.mpr hne
          rw [List.length_cons]
          omega
        · cases h
      · split at h
        · cases h
        · split at h
          · cases h
          · split at h
            · rename_i hclose
              cases h
              have hlt := lt_of_getElem? hclose
              rw [List.length_drop] at hlt
              rw [List.length_cons]
              omega
            · cases h

theorem elem_bounded (e : Elem) : Bounded (elemWidth e) := by
  cases e with
  | integer t => exact int_bounded
  | string => exact string_bounded
  | vector e => exact vector_bounded

/-- So is a value of any type. -/
theorem ty_bounded (t : Ty) : Bounded (tyWidth t) := by
  cases t with
  | bool => exact bool_bounded
  | elem e => exact elem_bounded e

end Bounds

section Cursor

variable {b : Buffer} {c : UInt8} {n : Nat}

theorem get_nil (h : b.rest = []) : b.get = (none, b) := by
  have hnone : b.s[b.readPos]? = none := List.getElem?_eq_none (List.drop_eq_nil_iff.mp h)
  simp only [Buffer.get, hnone]

/-- The byte that was asked for is taken. -/
theorem gets_head (h : b.rest.head? = some c) : b.gets c = (true, b.skip 1) := by
  cases hrest : b.rest with
  | nil =>
    rw [hrest] at h
    cases h
  | cons v r =>
    rw [hrest] at h
    cases h
    exact Buffer.gets_cons hrest

/-- Another one is not what was asked for, and may be gone. -/
theorem gets_other (h : b.rest.head? ≠ some c) : ∃ b', b'.s = b.s ∧ b.gets c = (false, b') := by
  cases hrest : b.rest with
  | nil => exact ⟨b, rfl, by simp [Buffer.gets, get_nil hrest]⟩
  | cons v r =>
    have hne : v ≠ c := by
      intro hv
      rw [hrest, hv] at h
      exact h rfl
    exact ⟨b.skip 1, rfl, by simp [Buffer.gets, Buffer.get_cons hrest, hne]⟩

theorem untilDelim_eq_none {c : UInt8} {s : Bytes} (h : c ∉ s) :
    Buffer.untilDelim c s = none := by
  induction s with
  | nil => rfl
  | cons v s ih =>
    have hv : v ≠ c := fun heq => h (by simp [heq])
    have hs : c ∉ s := fun hmem => h (by simp [hmem])
    rw [Buffer.untilDelim, if_neg (mt Buffer.eq_of_delim hv), ih hs]
    rfl

theorem readUntil_none (h : Buffer.untilDelim c b.rest = none) : b.readUntil c = ([], b) := by
  simp only [Buffer.readUntil, h]

/-- `ReadUntil` takes the bytes up to the delimiter, and the delimiter. -/
theorem readUntil_some (h : Buffer.untilDelim c b.rest = some n) :
    b.readUntil c = (b.rest.take n, b.skip n) ∧ (b.rest.take n).isEmpty = false := by
  obtain ⟨hpos, hle⟩ := untilDelim_le h
  have hlen : (b.rest.take n).length = n := by
    rw [List.length_take]
    omega
  refine ⟨by simp only [Buffer.readUntil, h], ?_⟩
  rw [List.isEmpty_eq_false_iff]
  apply List.ne_nil_of_length_pos
  omega

/-- Behind a tag the text up to the delimiter is not empty, as the delimiter is part of it. -/
theorem readUntil_behind {v : UInt8} {r : Bytes} (hrest : b.rest = v :: r)
    (h : Buffer.untilDelim c r = some n) :
    (b.skip 1).readUntil c = (r.take n, (b.skip 1).skip n) ∧ (r.take n).isEmpty = false ∧
      ((b.skip 1).skip n).rest = r.drop n := by
  have hskip := Buffer.rest_skip_cons hrest
  obtain ⟨hread, hne⟩ := readUntil_some (b := b.skip 1) (by rwa [hskip])
  rw [hskip] at hread hne
  exact ⟨hread, hne, by rw [Buffer.rest_skip, hskip]⟩

theorem length_rest : b.rest.length = b.s.length - b.readPos := List.length_drop

/-- The last byte that is there stays for the closing quote. -/
theorem readN_lt (h : n < b.rest.length) :
    b.readN n = (b.rest.take n, b.skip n) ∧ (b.rest.take n).length = n := by
  rw [length_rest] at h
  have hlen : (b.rest.take n).length = n := by
    rw [List.length_take, length_rest]
    omega
  rw [Buffer.readN, if_pos (by omega)]
  exact ⟨rfl, hlen⟩

/-- `ReadN` reads nothing unless a byte is left behind. -/
theorem readN_ge (hpos : 0 < n) (h : b.rest.length ≤ n) :
    (b.readN n).1.length ≠ n ∧ (b.readN n).2 = b := by
  rw [length_rest] at h
  rw [Buffer.readN, if_neg (by omega)]
  exact ⟨by simp only [List.length_nil]; omega, rfl⟩

theorem head?_skip : (b.skip n).rest.head? = b.rest[n]? := by
  rw [Buffer.rest_skip, List.head?_drop]

end Cursor

section Outcomes

variable {α : Type} {target : α} {b : Buffer}

/-- What a read comes to before its sentry. -/
inductive Attempt (target : α) (b : Buffer) : Option Nat → Reading α → Prop where
  | taken (n : Nat) (v : α) : Attempt target b (some n) (.ok (true, v, b.skip n))
  | refused (b' : Buffer) (h : b'.s = b.s) : Attempt target b none (.ok (false, target, b'))
  | thrown (e : StdException) : Attempt target b none (.error e)

/-- What a read comes to: a value and the bytes that it takes, or nothing changed. -/
inductive Outcome (target : α) (b : Buffer) : Option Nat → Reading α → Prop where
  | taken (n : Nat) (v : α) : Outcome target b (some n) (.ok (true, v, b.skip n))
  | refused : Outcome target b none (.ok (false, target, b))
  | thrown (e : StdException) : Outcome target b none (.error e)

/-- The sentry takes a failed read back. -/
theorem Attempt.sentry {width : Option Nat} {r : Reading α} (h : Attempt target b width r) :
    Outcome target b width (b.sentry r) := by
  cases h with
  | taken n v => exact .taken n v
  | refused b' h =>
    obtain ⟨s, readPos⟩ := b
    obtain ⟨s', readPos'⟩ := b'
    cases h
    exact .refused
  | thrown e => exact .thrown e

/-- The bytes at the read position decide what a read takes. -/
def Takes (read : α → Buffer → Reading α) (width : Bytes → Option Nat) : Prop :=
  ∀ target b, Outcome target b (width b.rest) (read target b)

/-- Reading an integer follows its width. -/
theorem int_attempt (t : IntTy) (target : t.Val) (b : Buffer) :
    Attempt target b (intWidth b.rest) (t.read' target b) := by
  unfold IntTy.read'
  cases hrest : b.rest with
  | nil =>
    rw [get_nil hrest]
    exact .refused b rfl
  | cons v r =>
    have hskip := Buffer.rest_skip_cons hrest
    rw [Buffer.get_cons hrest, intWidth]
    dsimp only
    by_cases hdigit : 48 ≤ v ∧ v ≤ 57
    · rw [if_pos hdigit, if_pos hdigit]
      exact .taken 1 _
    rw [if_neg hdigit, if_neg hdigit]
    have hnumber : ∀ i : Bytes →
        Int, Attempt target b (some ((Buffer.untilDelim tagSemicolon r).getD 0 + 1))
          (.ok (true, t.cast (i ((b.skip 1).readUntil tagSemicolon).1),
            ((b.skip 1).readUntil tagSemicolon).2)) := by
      intro i
      cases hk : Buffer.untilDelim tagSemicolon r with
      | none =>
        rw [readUntil_none (hskip ▸ hk)]
        exact .taken 1 _
      | some k =>
        rw [(readUntil_behind hrest hk).1, Buffer.skip_skip, Nat.add_comm 1 k]
        exact .taken (k + 1) _
    by_cases hint : v = tagInteger
    · rw [if_pos hint, if_pos (.inl hint)]
      exact hnumber atoi
    · rw [if_neg hint]
      by_cases hlong : v = tagLong
      · rw [if_pos hlong, if_pos (.inr hlong)]
        exact hnumber atoll
      · rw [if_neg hlong, if_neg (by simp [hint, hlong])]
        exact .refused _ rfl

theorem bool_attempt (target : Bool) (b : Buffer) :
    Attempt target b (boolWidth b.rest) (readBool' target b) := by
  unfold readBool'
  cases hrest : b.rest with
  | nil =>
    rw [get_nil hrest]
    exact .refused b rfl
  | cons v r =>
    rw [Buffer.get_cons hrest, boolWidth]
    dsimp only
    by_cases htrue : v = tagTrue
    · rw [if_pos htrue, if_pos (.inl htrue)]
      exact .taken 1 true
    · rw [if_neg htrue]
      by_cases hfalse : v = tagFalse
      · rw [if_pos hfalse, if_pos (.inr hfalse)]
        exact .taken 1 false
      · rw [if_neg hfalse, if_neg (by simp [htrue, hfalse])]
        exact .refused _ rfl

/-- A value is taken when its closing byte follows, `n` bytes behind the length text. -/
theorem close_attempt (target x : α) {v c : UInt8} {r : Bytes}
    (hrest : b.rest = v :: r) (k n : Nat) :
    Attempt target b (if (r.drop k)[n]? = some c then some (k + n + 2) else none)
      (match (((b.skip 1).skip k).skip n).gets c with
        | (true, b') => .ok (true, x, b')
        | (false, b') => .ok (false, target, b')) := by
  have hhead : (((b.skip 1).skip k).skip n).rest.head? = (r.drop k)[n]? := by
    rw [head?_skip, Buffer.rest_skip, Buffer.rest_skip_cons hrest]
  by_cases hclose : (r.drop k)[n]? = some c
  · have hsum : 1 + k + n + 1 = k + n + 2 := by omega
    rw [gets_head (hhead.trans hclose), if_pos hclose]
    simp only [Buffer.skip_skip, hsum]
    exact .taken _ x
  · obtain ⟨b', hb', hgets⟩ := gets_other (hhead ▸ hclose)
    rw [hgets, if_neg hclose]
    exact .refused b' hb'

/-- Reading a string follows its width. -/
theorem string_attempt (target : Bytes) (b : Buffer) :
    Attempt target b (stringWidth b.rest) (readString' target b) := by
  unfold readString'
  cases hrest : b.rest with
  | nil =>
    rw [get_nil hrest]
    exact .refused b rfl
  | cons v r =>
    have hskip := Buffer.rest_skip_cons hrest
    rw [Buffer.get_cons hrest, stringWidth]
    dsimp only
    by_cases hempty : v = tagEmpty
    · rw [if_pos hempty, if_pos hempty]
      exact .taken 1 []
    rw [if_neg hempty, if_neg hempty]
    by_cases htag : v ≠ tagString ∧ v ≠ tagBytes
    · rw [if_pos htag, if_pos htag]
      exact .refused _ rfl
    rw [if_neg htag, if_neg htag]
    cases hk : Buffer.untilDelim tagQuote r with
    | none =>
      have hother : (b.skip 1).rest.head? ≠ some tagQuote := by
        rw [hskip]
        intro hhead
        obtain ⟨r', rfl⟩ := List.head?_eq_some_iff.mp hhead
        rw [Buffer.untilDelim, if_pos (by decide)] at hk
        cases hk
      obtain ⟨b', hb', hgets⟩ := gets_other hother
      rw [readUntil_none (hskip ▸ hk)]
      dsimp only
      rw [hgets]
      exact .refused b' hb'
    | some k =>
      obtain ⟨hread, hne, hbehind⟩ := readUntil_behind hrest hk
      rw [hread]
      dsimp only
      rw [hne, if_neg Bool.false_ne_true]
      by_cases hpos : atoi (r.take k) ≤ 0
      · rw [if_pos hpos, if_neg (by omega)]
        exact .refused _ rfl
      rw [if_neg hpos]
      by_cases hlen : (atoi (r.take k)).toNat < (r.drop k).length
      · obtain ⟨htake, heq⟩ := readN_lt (hbehind ▸ hlen)
        rw [hbehind] at heq
        rw [htake, hbehind, heq]
        dsimp only
        rw [if_neg (not_not.mpr rfl)]
        have hcount : 0 < atoi (r.take k) := by omega
        simp only [hcount, true_and]
        exact close_attempt target _ hrest k _
      · have hnone : (r.drop k)[(atoi (r.take k)).toNat]? = none := List.getElem?_eq_none (by omega)
        obtain ⟨hshort, hsame⟩ := readN_ge (b := (b.skip 1).skip k)
          (n := (atoi (r.take k)).toNat) (by omega)
          (by rw [hbehind]; omega)
        rw [if_pos hshort, hsame, if_neg (by simp [hnone])]
        exact .refused _ rfl

/-- What the reads of a vector's elements come to. -/
inductive ElemsOutcome (b : Buffer) :
    Option Nat → Except StdException (Option (List α) × Buffer) → Prop where
  | taken (n : Nat) (xs : List α) : ElemsOutcome b (some n) (.ok (some xs, b.skip n))
  | refused (b' : Buffer) (h : b'.s = b.s) : ElemsOutcome b none (.ok (none, b'))
  | thrown (e : StdException) : ElemsOutcome b none (.error e)

variable {default : α} {read : α → Buffer → Reading α} {width : Bytes → Option Nat}

/-- Reading the elements of a vector follows their widths, one after the other. -/
theorem elems_outcome (h : Takes read width) (default : α) (n : Nat) (b : Buffer) :
    ElemsOutcome b (elemsWidth width n b.rest) (readElems default read n b) := by
  induction n generalizing b with
  | zero => exact .taken 0 []
  | succ n ih =>
    have hread := h default b
    rw [elemsWidth, readElems]
    generalize width b.rest = w at hread
    generalize read default b = r at hread
    cases hread with
    | taken m v =>
      have hrec := ih (b.skip m)
      dsimp only
      rw [Buffer.rest_skip] at hrec
      generalize elemsWidth width n (b.rest.drop m) = w at hrec
      generalize readElems default read n (b.skip m) = r at hrec
      cases hrec with
      | taken k xs =>
        rw [Buffer.skip_skip]
        exact .taken (m + k) (v :: xs)
      | refused b' hb' => exact .refused b' hb'
      | thrown e => exact .thrown e
    | refused => exact .refused b rfl
    | thrown e => exact .thrown e

/-- Reading a vector follows its width. -/
theorem vector_attempt (h : Takes read width) (target : List α) (b : Buffer) :
    Attempt target b (vectorWidth width b.rest) (readVector' default read target b) := by
  unfold readVector'
  by_cases htag : b.rest.head? = some tagList
  · obtain ⟨r, hrest⟩ := List.head?_eq_some_iff.mp htag
    have hskip := Buffer.rest_skip_cons hrest
    rw [gets_head htag, hrest, vectorWidth, if_neg (not_not.mpr rfl)]
    dsimp only
    cases hk : Buffer.untilDelim tagOpenbrace r with
    | none =>
      rw [readUntil_none (hskip ▸ hk)]
      dsimp only
      rw [if_pos (show ([] : Bytes).isEmpty = true from rfl)]
      by_cases hclose : r.head? = some tagClosebrace
      · have hhead : (b.skip 1).rest.head? = some tagClosebrace := by rw [hskip, hclose]
        rw [gets_head hhead, if_pos hclose]
        exact .taken 2 []
      · obtain ⟨b', hb', hgets⟩ := gets_other (b := b.skip 1) (by rwa [hskip])
        rw [hgets, if_neg hclose]
        exact .refused b' hb'
    | some k =>
      obtain ⟨hread, hne, hbehind⟩ := readUntil_behind hrest hk
      rw [hread]
      dsimp only
      rw [hne, if_neg Bool.false_ne_true]
      by_cases hneg : atoi (r.take k) < 0
      · rw [if_pos hneg, if_pos hneg]
        exact .thrown .lengthError
      rw [if_neg hneg, if_neg hneg]
      have helems := elems_outcome h default (atoi (r.take k)).toNat ((b.skip 1).skip k)
      rw [hbehind] at helems
      generalize elemsWidth width (atoi (r.take k)).toNat (r.drop k) = w at helems
      generalize readElems default read (atoi (r.take k)).toNat ((b.skip 1).skip k) = e at helems
      cases helems with
      | taken m xs =>
        dsimp only
        exact close_attempt target xs hrest k m
      | refused b' hb' => exact .refused b' hb'
      | thrown e => exact .thrown e
  · obtain ⟨b', hb', hgets⟩ := gets_other htag
    rw [hgets]
    have hnone : vectorWidth width b.rest = none := by
      cases hrest : b.rest with
      | nil => rfl
      | cons v r =>
        have hne : v ≠ tagList := by
          intro hv
          rw [hrest, hv] at htag
          exact htag rfl
        rw [vectorWidth, if_pos hne]
    rw [hnone]
    exact .refused b' hb'

theorem elem_takes (e : Elem) : Takes e.read (elemWidth e) := by
  induction e with
  | integer t => exact fun target b => (int_attempt t target b).sentry
  | string => exact fun target b => (string_attempt target b).sentry
  | vector e ih => exact fun target b => (vector_attempt ih target b).sentry

/-- Every type is read by its width, and a failed reading goes back. -/
theorem ty_takes (t : Ty) : Takes t.read (tyWidth t) := by
  cases t with
  | bool => exact fun target b => (bool_attempt target b).sentry
  | elem e => exact elem_takes e

end Outcomes

section Frame

/-- A read that returns false changes nothing, and one that returns true has moved forward
inside the buffer. -/
structure Clean {α : Type} (read : α → Buffer → Reading α) : Prop where
  unchanged : ∀ target b v b', read target b = .ok (false, v, b') → v = target ∧ b' = b
  advanced : ∀ target b v b', read target b = .ok (true, v, b') →
    b'.s = b.s ∧ b.readPos < b'.readPos ∧ b'.readPos ≤ b.s.length

/-- A reading by a width leaves the buffer as it should. -/
theorem clean_of_takes {α : Type} {read : α → Buffer → Reading α} {width : Bytes → Option Nat}
    (h : Takes read width) (hw : Bounded width) : Clean read where
  unchanged target b v b' heq := by
    have hread := h target b
    rw [heq] at hread
    generalize width b.rest = w at hread
    cases hread with
    | refused => exact ⟨rfl, rfl⟩
  advanced target b v b' heq := by
    have hread := h target b
    have hbound := hw b.rest
    rw [heq] at hread
    generalize width b.rest = w at hread hbound
    cases hread with
    | taken n v =>
      obtain ⟨hpos, hle⟩ := hbound n rfl
      rw [length_rest] at hle
      refine ⟨rfl, ?_, ?_⟩
      · change b.readPos < b.readPos + n
        omega
      · change b.readPos + n ≤ b.s.length
        omega

theorem read_clean (t : Ty) : Clean t.read := clean_of_takes (ty_takes t) (ty_bounded t)

end Frame

section Delimiters

variable {c : UInt8} {b : Buffer}

/-- What the comment on `ReadUntil` says: the bytes in front of the first delimiter, which
is passed over, and nothing without one. -/
structure ReadsUpTo (c : UInt8) (b : Buffer) : Prop where
  found : ∀ p r : Bytes, b.rest = p ++ c :: r → c ∉ p →
    b.readUntil c = (p, b.skip (p.length + 1))
  missing : c ∉ b.rest → b.readUntil c = ([], b)

/-- A byte from 128 on is negative as a `char`, and is never found. -/
theorem untilDelim_negative (hc : 128 ≤ c.toNat) (s : Bytes) : Buffer.untilDelim c s = none := by
  have hneg := Buffer.toInt8_neg hc
  induction s with
  | nil => rfl
  | cons v s ih =>
    have hv : ¬ (v.toNat : Int) = c.toInt8.toInt := by omega
    rw [Buffer.untilDelim, if_neg hv, ih]
    rfl

/-- A delimiter that is there is part of the result, or is not found at all. -/
theorem not_readsUpTo (hmem : c ∈ b.rest) : ¬ ReadsUpTo c b := by
  intro h
  obtain ⟨p, r, hrest, hp⟩ := List.eq_append_cons_of_mem hmem
  have hread := h.found p r hrest hp
  by_cases hc : c.toNat < 128
  · rw [Buffer.readUntil_append hc hp hrest] at hread
    have hlen := congrArg (fun q : Bytes × Buffer => q.1.length) hread
    simp at hlen
  · rw [readUntil_none (untilDelim_negative (Nat.le_of_not_lt hc) _)] at hread
    have hpos := congrArg (fun q : Bytes × Buffer => q.2.readPos) hread
    simp [Buffer.skip] at hpos

theorem readsUpTo_iff (c : UInt8) (b : Buffer) : ReadsUpTo c b ↔ c ∉ b.rest := by
  constructor
  · intro h hmem
    exact not_readsUpTo hmem h
  · intro hno
    constructor
    · intro p r hrest
      exact absurd (hrest ▸ List.mem_append_right p List.mem_cons_self) hno
    · intro _
      exact readUntil_none (untilDelim_eq_none hno)

/-- An empty field is read as its delimiter. -/
theorem empty_field_read : Buffer.readUntil tagQuote ⟨[34, 34], 0⟩ = ([34], ⟨[34, 34], 1⟩) ∧
    ¬ ReadsUpTo tagQuote ⟨[34, 34], 0⟩ :=
  ⟨rfl, not_readsUpTo (by decide)⟩

end Delimiters

end Ucorf.HproseReads
