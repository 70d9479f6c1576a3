import Ucorf.HproseReads
import Ucorf.HproseTransparency

/-!
# Which integers are read as they are written

`__Read(Integer &)` leaves the text after a tag to `atoi` and `atoll`, which take what is
no numeral for a number as well, and keeps what fits of it. An integer is read as it stands
there exactly when it is a digit, or a numeral up to a semicolon that its type holds and
that the function of its tag does not cut off.
-/
namespace Ucorf.HproseIntegers

open Ucorf.Message
open Ucorf.Decimal
open Ucorf.HproseProtocol
open Ucorf.HproseRoundTrip
open Ucorf.HproseService
open Ucorf.HproseTransparency
open Ucorf.HproseReads

/-- The bytes of an integer, and the integer. -/
inductive Denotes : Bytes → Int → Prop where
  | digit (c : UInt8) (h : isDigit c = true) : Denotes [c] (c.toNat - 48)
  | number (tag : UInt8) (text : Bytes) (n : Int) (htag : tag = tagInteger ∨ tag = tagLong)
    (h : denoted text = some n) :
      Denotes (tag :: (text ++ [tagSemicolon])) n

/-- Integers at the read position are accepted exactly when they are well formed and of the type. -/
structure WellRead (t : IntTy) (b : Buffer) : Prop where
  sound : ∀ target v b', t.read target b = .ok (true, v, b') →
    ∃ p, b.rest = p ++ b'.rest ∧ b' = b.skip p.length ∧ Denotes p v.1
  complete : ∀ p n r, b.rest = p ++ r → Denotes p n → ∀ target,
    (∀ h : t.InRange n, t.read target b = .ok (true, ⟨n, h⟩, b.skip p.length)) ∧
      (¬ t.InRange n → t.read target b = .ok (false, target, b))

/-- What `atoi` after the one tag and `atoll` after the other give back. -/
def Kept (t : IntTy) (tag : UInt8) (n : Int) : Prop :=
  t.size ≤ 4 ∨ tag = tagInteger ∧ (-2 ^ 31 ≤ n ∧ n < 2 ^ 31 ∨ n = 2 ^ 64 - 1) ∨
  tag = tagLong ∧ n < 2 ^ 63

/-- Behind a tag there is a numeral up to a semicolon, that the type holds and the function of the
tag gives back. -/
def Legible (t : IntTy) : Bytes → Prop
  | [] => True
  | tag :: r => tag = tagInteger ∨ tag = tagLong →
    ∃ text r' n, r = text ++ tagSemicolon :: r' ∧ denoted text = some n ∧ t.InRange n ∧ Kept t tag n

section Reads

variable {t : IntTy} {b : Buffer} {v : UInt8} {r : Bytes} {target : t.Val}

/-- The number that is made of the text after a tag. -/
def number (tag : UInt8) (text : Bytes) : Int := if tag = tagInteger then atoi text else atoll text

theorem digit_iff : (48 ≤ v ∧ v ≤ 57) ↔ isDigit v = true := by
  simp only [isDigit, decide_eq_true_eq, UInt8.le_iff_toNat_le]
  rfl

theorem not_tag (hdigit : isDigit v = true) : ¬ (v = tagInteger ∨ v = tagLong) := by
  rintro (rfl | rfl)
  · cases hdigit
  · cases hdigit

theorem read_nil (h : b.rest = []) : t.read target b = .ok (false, target, b) := by
  simp only [IntTy.read, IntTy.read', get_nil h]
  rfl

theorem read_digit (h : b.rest = v :: r) (hdigit : isDigit v = true) :
    t.read target b = .ok (true, t.cast (v.toNat - 48), b.skip 1) := by
  simp only [IntTy.read, IntTy.read', Buffer.get_cons h, if_pos (digit_iff.mpr hdigit),
    Buffer.sentry_true]

theorem read_number (h : b.rest = v :: r) (htag : v = tagInteger ∨ v = tagLong) :
    t.read target b = .ok (true, t.cast (number v ((b.skip 1).readUntil tagSemicolon).1),
      ((b.skip 1).readUntil tagSemicolon).2) := by
  have hdigit : ¬ (48 ≤ v ∧ v ≤ 57) := fun hd => not_tag (digit_iff.mp hd) htag
  simp only [IntTy.read, IntTy.read', Buffer.get_cons h, if_neg hdigit, number]
  obtain rfl | rfl := htag
  · rw [if_pos rfl, if_pos rfl, Buffer.sentry_true]
  · have hne : tagLong ≠ tagInteger := by decide
    rw [if_neg hne, if_neg hne, if_pos rfl, Buffer.sentry_true]

theorem read_other (h : b.rest = v :: r) (hdigit : ¬ isDigit v = true)
    (htag : ¬ (v = tagInteger ∨ v = tagLong)) :
    t.read target b = .ok (false, target, b) := by
  obtain ⟨hint, hlong⟩ := not_or.mp htag
  simp only [IntTy.read, IntTy.read', Buffer.get_cons h, if_neg (mt digit_iff.mp hdigit),
    if_neg hint, if_neg hlong]
  rfl

/-- Without a semicolon the read stops after the tag and makes zero of it. -/
theorem read_cut (h : b.rest = v :: r) (htag : v = tagInteger ∨ v = tagLong)
    (hcut : Buffer.untilDelim tagSemicolon r = none) :
    t.read target b = .ok (true, t.cast 0, b.skip 1) := by
  have hrest := Buffer.rest_skip_cons h
  rw [read_number h htag, readUntil_none (hrest ▸ hcut)]
  have hzero : number v [] = 0 := by
    obtain rfl | rfl := htag <;> rfl
  rw [hzero]

theorem read_text {text : Bytes} (h : b.rest = v :: (text ++ tagSemicolon :: r))
    (htag : v = tagInteger ∨ v = tagLong) (htext : tagSemicolon ∉ text) :
    t.read target b = .ok (true, t.cast (number v (text ++ [tagSemicolon])),
      b.skip (text.length + 2)) := by
  have hlen : 1 + (text.length + 1) = text.length + 2 := by omega
  rw [read_number h htag, Buffer.readUntil_append (by decide) htext (Buffer.rest_skip_cons h),
    Buffer.skip_skip, hlen]

theorem untilDelim_split {c : UInt8} (hc : c.toNat < 128) {s : Bytes} {k : Nat}
    (h : Buffer.untilDelim c s = some k) :
    ∃ text s', s = text ++ c :: s' ∧ c ∉ text := by
  induction s generalizing k with
  | nil => cases h
  | cons v s ih =>
    by_cases hv : v = c
    · exact ⟨[], s, by rw [hv]; rfl, List.not_mem_nil⟩
    · rw [Buffer.untilDelim, if_neg (mt (Buffer.delim_iff hc).mp hv)] at h
      obtain ⟨m, hm, -⟩ := Option.map_eq_some_iff.mp h
      obtain ⟨text, s', rfl, htext⟩ := ih hm
      have hnot : c ∉ v :: text := by simp [Ne.symm hv, htext]
      exact ⟨v :: text, s', rfl, hnot⟩

end Reads

section Conversion

variable {t : IntTy} {tag : UInt8} {text : Bytes} {n : Int}

theorem number_denoted (h : denoted text = some n) :
    number tag (text ++ [tagSemicolon]) =
      if tag = tagInteger then narrow (max (-2 ^ 63) (min (2 ^ 63 - 1) n))
      else max (-2 ^ 63) (min (2 ^ 63 - 1) n) := by
  have hstrtoll := strtoll_denoted h (show isDigit tagSemicolon = false by decide) []
  rw [number, atoi, atoll, hstrtoll]

theorem narrow_cases (i : Int) :
    narrow i = if i % 2 ^ 32 < 2 ^ 31 then i % 2 ^ 32 else i % 2 ^ 32 - 2 ^ 32 := by
  have hmod : ((2 ^ 32 : Nat) : Int) = 2 ^ 32 := by norm_num
  have hhalf : ((2 : Int) ^ 32 + 1) / 2 = 2 ^ 31 := by decide
  rw [narrow, Int.bmod, hmod, hhalf]

/-- A type of at most 32 bits gets every value of its own. -/
theorem cast_number_narrow (ht : t.size ≤ 4) (h : denoted text = some n)
    (hn : t.InRange n) : (t.cast (number tag (text ++ [tagSemicolon]))).1 = n := by
  have hbounds : -2 ^ 63 ≤ n ∧ n ≤ 2 ^ 63 - 1 := by
    cases t <;> simp only [IntTy.InRange, IntTy.isSigned, IntTy.size, if_true, Bool.false_eq_true,
      if_false] at hn ht <;>
      omega
  have hclamp : max (-2 ^ 63) (min (2 ^ 63 - 1) n) = n := by omega
  have hcast : t.cast n = ⟨n, hn⟩ := t.cast_of_inRange ⟨n, hn⟩
  rw [number_denoted h, hclamp]
  split
  · rw [t.cast_narrow ht, hcast]
  · rw [hcast]

theorem cast_number_iff (htag : tag = tagInteger ∨ tag = tagLong) (h : denoted text = some n)
    (hn : t.InRange n) :
    (t.cast (number tag (text ++ [tagSemicolon]))).1 = n ↔ Kept t tag n := by
  by_cases ht : t.size ≤ 4
  · exact ⟨fun _ => .inl ht, fun _ => cast_number_narrow ht h hn⟩
  have hne : tagLong ≠ tagInteger := by decide
  rw [number_denoted h, Kept, narrow_cases]
  cases t <;>
    simp only [IntTy.InRange, IntTy.isSigned, IntTy.size, IntTy.cast, Int.bmod, if_true,
      Bool.false_eq_true, if_false]
      at hn ht ⊢ <;>
    obtain rfl | rfl := htag <;> simp only [if_true, hne, hne.symm, if_false, true_and, false_and,
      or_false, false_or] <;> omega

end Conversion

section Reading

variable {t : IntTy} {b : Buffer}

theorem digit_inRange {c : UInt8} (hc : isDigit c = true) : t.InRange (c.toNat - 48) := by
  simp only [isDigit, decide_eq_true_eq] at hc
  cases t <;> simp only [IntTy.InRange, IntTy.isSigned, IntTy.size, if_true, Bool.false_eq_true,
    if_false] <;> omega

theorem semicolon_not_mem {text : Bytes} {n : Int} (h : denoted text = some n) :
    tagSemicolon ∉ text :=
  not_mem_denoted h (by decide) (by decide) (by decide)

theorem rest_of_skip {p r : Bytes} (h : b.rest = p ++ r) :
    b.rest = p ++ (b.skip p.length).rest := by
  rw [Buffer.rest_skip_append h, h]

theorem skip_injective {m n : Nat} (h : b.skip m = b.skip n) : m = n := by
  have hpos : b.readPos + m = b.readPos + n := congrArg Buffer.readPos h
  omega

/-- A legible integer of more than one byte is read as what it denotes. -/
theorem read_legible {tag : UInt8} {text r : Bytes} {n : Int}
    (hrest : b.rest = tag :: (text ++ tagSemicolon :: r)) (htag : tag = tagInteger ∨ tag = tagLong)
    (h : denoted text = some n) (hn : t.InRange n) (hkept : Kept t tag n)
    (target : t.Val) : t.read target b = .ok (true, ⟨n, hn⟩, b.skip (text.length + 2)) := by
  have hcast : t.cast (number tag (text ++ [tagSemicolon])) = ⟨n, hn⟩ :=
    Subtype.ext ((cast_number_iff htag h hn).mpr hkept)
  rw [read_text hrest htag (semicolon_not_mem h), hcast]

theorem wellRead_of_legible (h : Legible t b.rest) : WellRead t b where
  sound target v b' hread := by
    cases hrest : b.rest with
    | nil =>
      rw [read_nil hrest] at hread
      cases hread
    | cons c r =>
      rw [hrest] at h
      by_cases hdigit : isDigit c = true
      · rw [read_digit hrest hdigit, t.cast_of_inRange ⟨_, digit_inRange hdigit⟩] at hread
        cases hread
        have hsplit : b.rest = [c] ++ r := hrest
        exact ⟨[c], hrest ▸ rest_of_skip hsplit, rfl, .digit c hdigit⟩
      · by_cases htag : c = tagInteger ∨ c = tagLong
        · obtain ⟨text, r', n, rfl, hdenoted, hn, hkept⟩ := h htag
          rw [read_legible hrest htag hdenoted hn hkept] at hread
          cases hread
          have hlen : (c :: (text ++ [tagSemicolon])).length = text.length + 2 := by simp
          have hsplit : b.rest = (c :: (text ++ [tagSemicolon])) ++ r' := by simp [hrest]
          have hskip := rest_of_skip hsplit
          rw [hlen, hrest] at hskip
          exact ⟨c :: (text ++ [tagSemicolon]), hskip, by rw [hlen], .number c text n htag hdenoted⟩
        · rw [read_other hrest hdigit htag] at hread
          cases hread
  complete p n r hrest hp target := by
    cases hp with
    | digit c hc =>
      have hcons : b.rest = c :: r := hrest
      refine ⟨fun hn => ?_, fun hn => absurd (digit_inRange hc) hn⟩
      rw [read_digit hcons hc, t.cast_of_inRange ⟨_, hn⟩]
      rfl
    | number tag text n htag hdenoted =>
      have hcons : b.rest = tag :: (text ++ tagSemicolon :: r) := by simp [hrest]
      rw [hcons] at h
      obtain ⟨text', r', n', heq, hdenoted', hn, hkept⟩ := h htag
      obtain ⟨rfl, -⟩ := split_unique (semicolon_not_mem hdenoted) (semicolon_not_mem hdenoted') heq
      rw [hdenoted] at hdenoted'
      cases hdenoted'
      refine ⟨fun hn => ?_, fun hout => absurd hn hout⟩
      have hlen : (tag :: (text ++ [tagSemicolon])).length = text.length + 2 := by simp
      rw [read_legible hcons htag hdenoted hn hkept, hlen]

/-- What the read takes is one byte without a semicolon, and else the text up to the first one. -/
theorem legible_of_wellRead (h : WellRead t b) : Legible t b.rest := by
  cases hrest : b.rest with
  | nil => trivial
  | cons c r =>
    intro htag
    cases hk : Buffer.untilDelim tagSemicolon r with
    | none =>
      obtain ⟨p, hp, hskip, hdenotes⟩ := h.sound (t.cast 0) _ _ (read_cut hrest htag hk)
      have hlen := skip_injective hskip
      generalize (t.cast 0).1 = i at hdenotes
      cases hdenotes with
      | digit d hd =>
        rw [hrest] at hp
        cases hp
        exact absurd htag (not_tag hd)
      | number tag text n => simp at hlen
    | some k =>
      obtain ⟨text, r', rfl, htext⟩ := untilDelim_split (by decide) hk
      obtain ⟨p, hp, hskip, hdenotes⟩ := h.sound (t.cast 0) _ _ (read_text hrest htag htext)
      have hlen := skip_injective hskip
      generalize hv : t.cast (number c (text ++ [tagSemicolon])) = v at hdenotes
      obtain ⟨n, hn⟩ := v
      dsimp only at hdenotes
      cases hdenotes with
      | digit d hd => simp at hlen
      | number tag text' n htag' hdenoted =>
        rw [hrest, List.cons_append, List.append_assoc] at hp
        injection hp with htagEq hp
        obtain ⟨rfl, -⟩ := split_unique htext (semicolon_not_mem hdenoted) hp
        have hvalue : (t.cast (number c (text ++ [tagSemicolon]))).1 = n := congrArg Subtype.val hv
        exact ⟨text, r', n, rfl, hdenoted, hn, (cast_number_iff htag hdenoted hn).mp hvalue⟩

theorem wellRead_iff (t : IntTy) (b : Buffer) : WellRead t b ↔ Legible t b.rest :=
  ⟨legible_of_wellRead, wellRead_of_legible⟩

end Reading

section Appended

/-- The tag that `Write` puts in front of a number of the type. -/
def writtenTag (t : IntTy) : UInt8 := if t.size ≤ 4 then tagInteger else tagLong

theorem writtenTag_cases (t : IntTy) : writtenTag t = tagInteger ∨ writtenTag t = tagLong := by
  rw [writtenTag]
  split
  · exact .inl rfl
  · exact .inr rfl

theorem kept_written {t : IntTy} {i : t.Val} (h : Kept t (writtenTag t) i.1) : i.1 < 2 ^ 63 := by
  by_cases hsize : t.size ≤ 4
  · exact (int_bounds t i).2 hsize
  · have htag : writtenTag t = tagLong := if_neg hsize
    have hne : tagLong ≠ tagInteger := by decide
    rw [htag] at h
    obtain hsmall | ⟨hint, -⟩ | ⟨-, hlt⟩ := h
    · exact absurd hsmall hsize
    · exact absurd hint hne
    · exact hlt

theorem lt_of_roundTrips {t : IntTy} {i : t.Val} (h : RoundTrips t.read (t.write i) i) :
    i.1 < 2 ^ 63 := by
  by_cases hdigit : 0 ≤ i.1 ∧ i.1 ≤ 9
  · omega
  · have hread := h.read_code (int_write t i) i
    have hcode : intCode t i = writtenTag t :: (ofInt i.1 ++ tagSemicolon :: []) := if_neg hdigit
    have hrest : Buffer.rest ⟨intCode t i, 0⟩ = writtenTag t ::
        (ofInt i.1 ++ tagSemicolon :: []) := hcode
    have hdenoted := denoted_ofInt i.1
    rw [read_text hrest (writtenTag_cases t) (semicolon_not_mem hdenoted)] at hread
    injection hread with hread
    have hvalue : t.cast (number (writtenTag t) (ofInt i.1 ++ [tagSemicolon])) = i :=
      congrArg (fun p => p.2.1) hread
    exact kept_written
      ((cast_number_iff (writtenTag_cases t) hdenoted i.2).mp (congrArg Subtype.val hvalue))

/-- The tag goes by the size of the type, and `atoll` cuts off the upper half of the widest
one without a sign. -/
theorem roundTrips_iff (t : IntTy) (i : t.Val) :
    RoundTrips t.read (t.write i) i ↔ i.1 < 2 ^ 63 := by
  constructor
  · exact lt_of_roundTrips
  · intro h
    exact roundTrips_of_decodes (int_write t i) (int_decodes t i (.inr h))

def topBit : IntTy.Val .uint64 := IntTy.cast .uint64 (2 ^ 63)

/-- The lowest value with the top bit comes back one less. -/
theorem unsigned_cut_off :
    topBit.1 = 2 ^ 63 ∧
    (∀ target, IntTy.read .uint64 target ⟨(IntTy.write .uint64 topBit Buffer.empty).s, 0⟩ =
      .ok (true, IntTy.cast .uint64 (2 ^ 63 - 1),
        ⟨(IntTy.write .uint64 topBit Buffer.empty).s, 21⟩)) ∧
    ¬ ∀ t, t = IntTy.uint16 ∨ t = .uint32 ∨ t = .uint64 →
    ∀ i : t.Val, RoundTrips t.read (t.write i) i := by
  refine ⟨by decide, fun target => rfl, fun hall => ?_⟩
  have hlt := lt_of_roundTrips (hall .uint64 (.inr (.inr rfl)) topBit)
  exact absurd hlt (by decide)

end Appended

section Requests

/-- A request that ends inside its one integer runs the function, on zero. -/
theorem cut_invokes {σ : Type} (functions : Functions σ) {method : Bytes}
    (hascii : ∀ c ∈ method, c.toNat < 128) (hlen : method.length < 2 ^ 31) {t : IntTy}
    {callee : Callee σ} (hargs : callee.args = [.elem (.integer t)])
    (hentry : functions[method]? = some callee) {tag : UInt8} {text : Bytes}
    (htag : tag = tagInteger ∨ tag = tagLong) (hcut : tagSemicolon ∉ text) (st : σ) :
    ∃ answer, callMethod functions (tagCall :: (stringCode method true ++ tag :: text)) st =
      .ok answer ∧
      answer.invoked = [⟨method, [.elem (.integer t)], (t.cast 0, ())⟩] := by
  obtain ⟨args, arity, result, fn⟩ := callee
  cases hargs
  obtain ⟨reader, hrest, hcall⟩ := callMethod_call functions hascii hlen (tag :: text) st
  have hread : Ty.read (.elem (.integer t)) (Ty.default (.elem (.integer t))) reader =
      .ok (true, t.cast 0, reader.skip 1) :=
    read_cut hrest htag (untilDelim_eq_none hcut)
  rw [hcall]
  simp only [call, hentry, Callee.call, readArgs, hread, Option.map_some]
  exact ⟨_, rfl, rfl⟩

def increment : Callee Unit where
  args := [.elem (.integer .int32)]
  arity := by decide
  result := .elem (.integer .int32)
  fn := fun (i, _) st => (IntTy.int32.cast (i.1 + 1), st)

def increments : Functions Unit := (registerFunction ∅ (ascii "inc") increment).2

theorem increments_inc : increments[ascii "inc"]? = some increment := by
  simp [increments, registerFunction]

/-- The request is cut off behind the second digit of its integer. -/
theorem cut_not_wellRead : ¬ WellRead .int32 ⟨[105, 49, 50], 0⟩ ∧
    ∃ answer, callMethod increments (ascii "Cs3\"inc\"i12") () = .ok answer ∧
      answer.invoked = [⟨ascii "inc", [.elem (.integer .int32)], (IntTy.int32.cast 0, ())⟩] := by
  constructor
  · intro h
    obtain ⟨text, r', n, heq, -⟩ := legible_of_wellRead h (.inl rfl)
    have hmem : tagSemicolon ∈ ([49, 50] : Bytes) := by
      rw [heq]
      simp
    exact absurd hmem (by decide)
  · have hbody : ascii "Cs3\"inc\"i12" =
    tagCall :: (stringCode (ascii "inc") true ++ tagInteger :: [49, 50]) := by
      decide +kernel
    rw [hbody]
    exact cut_invokes increments (all_ascii (by decide)) (by decide) rfl increments_inc (.inl rfl)
      (by decide) ()

end Requests

end Ucorf.HproseIntegers
