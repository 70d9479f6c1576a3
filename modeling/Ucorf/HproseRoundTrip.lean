import Ucorf.HproseProtocol

/-!
# What is written is read back

Every value has a code, the bytes that its `Write` appends. A read that has the code in
front of it takes exactly the code and gives the value: the number in front of a payload
stops at its own delimiter, and the payload is taken by its length.
-/
namespace Ucorf.HproseRoundTrip

open Ucorf.Message
open Ucorf.Decimal
open Ucorf.HproseProtocol

section Codes

def intCode (t : IntTy) (i : t.Val) : Bytes :=
  if 0 ≤ i.1 ∧ i.1 ≤ 9 then [UInt8.ofNat (i.1 + 48).toNat]
  else (if t.size ≤ 4 then tagInteger else tagLong) :: (ofInt i.1 ++ [tagSemicolon])

def boolCode (v : Bool) : Bytes := [if v then tagTrue else tagFalse]

def stringCode (str : Bytes) (utf8 : Bool) : Bytes :=
  if str.isEmpty then [tagEmpty]
  else (if utf8 then tagString else tagBytes) ::
    (ofInt (stringLength str utf8) ++ tagQuote :: (str ++ [tagQuote]))

def vectorCode {α : Type} (code : α → Bytes) (container : List α) : Bytes :=
  if container.length = 0 then [tagList, tagOpenbrace, tagClosebrace]
  else tagList :: (ofNat container.length ++ tagOpenbrace ::
    (container.flatMap code ++ [tagClosebrace]))

def elemCode : (e : Elem) → e.Val → Bytes
  | .integer t => intCode t
  | .string => fun str => stringCode str false
  | .vector e => vectorCode (elemCode e)

def tyCode : (t : Ty) → t.Val → Bytes
  | .bool => boolCode
  | .elem e => elemCode e

theorem write_eq (b : Buffer) (c : UInt8) : b.write c = b.writeBytes [c] := rfl

theorem writeBytes_writeBytes (b : Buffer) (p q : Bytes) :
    (b.writeBytes p).writeBytes q = b.writeBytes (p ++ q) := by
  simp [Buffer.writeBytes]

theorem int_write (t : IntTy) (i : t.Val) (b : Buffer) :
    t.write i b = b.writeBytes (intCode t i) := by
  unfold IntTy.write intCode
  by_cases h : 0 ≤ i.1 ∧ i.1 ≤ 9
  · rw [if_pos h, if_pos h]
    exact write_eq b _
  · rw [if_neg h, if_neg h]
    simp only [write_eq, writeBytes_writeBytes, List.append_assoc]
    rfl

theorem write_quoted (tag : UInt8) (number str : Bytes) (b : Buffer) :
    ((((b.write tag).writeBytes number).write tagQuote).writeBytes str).write tagQuote =
      b.writeBytes (tag :: (number ++ tagQuote :: (str ++ [tagQuote]))) := by
  simp only [write_eq, writeBytes_writeBytes, List.append_assoc, List.cons_append, List.nil_append]

theorem writeString_eq (str : Bytes) (utf8 : Bool) (b : Buffer) :
    writeString str utf8 b = b.writeBytes (stringCode str utf8) := by
  unfold writeString stringCode
  by_cases h : str.isEmpty = true
  · rw [if_pos h, if_pos h]
    exact write_eq b _
  · rw [if_neg h, if_neg h]
    exact write_quoted _ _ _ _

theorem foldl_write {α : Type} {write : α → Buffer → Buffer} {code : α → Bytes}
    (h : ∀ v b, write v b = b.writeBytes (code v)) (l : List α) (b : Buffer) :
    l.foldl (fun b elem => write elem b) b = b.writeBytes (l.flatMap code) := by
  induction l generalizing b with
  | nil => simp [Buffer.writeBytes]
  | cons x l ih => rw [List.foldl_cons, h, ih, writeBytes_writeBytes, List.flatMap_cons]

theorem writeVector_eq {α : Type} {write : α → Buffer → Buffer} {code : α → Bytes}
    (h : ∀ v b, write v b = b.writeBytes (code v)) (container : List α) (b : Buffer) :
    writeVector write container b = b.writeBytes (vectorCode code container) := by
  unfold writeVector vectorCode
  by_cases hlen : container.length = 0
  · rw [if_pos hlen, if_pos hlen]
    simp only [write_eq, writeBytes_writeBytes]
    rfl
  · rw [if_neg hlen, if_neg hlen]
    simp only [foldl_write h, write_eq, writeBytes_writeBytes, List.append_assoc, List.cons_append,
      List.nil_append]

theorem elem_write (e : Elem) (v : e.Val) (b : Buffer) :
    e.write v b = b.writeBytes (elemCode e v) := by
  induction e generalizing b with
  | integer t => exact int_write t v b
  | string => exact writeString_eq v false b
  | vector e ih => exact writeVector_eq ih v b

/-- `Write` appends the code of the value, whatever the buffer. -/
theorem ty_write (t : Ty) (v : t.Val) (b : Buffer) : t.write v b = b.writeBytes (tyCode t v) := by
  cases t with
  | bool => rfl
  | elem e => exact elem_write e v b

end Codes

section Decoding

/-- A read with `code` in front of it takes `code` and gives `v`, whatever the target was. -/
def Decodes {α : Type} (read : α → Buffer → Reading α) (code : Bytes) (v : α) : Prop :=
  ∀ (target : α) (b : Buffer) (r : Bytes), b.rest = code ++ r →
  read target b = .ok (true, v, b.skip code.length)

/-- A tag, a number and a delimiter, which the number does not contain. -/
theorem readUntil_number {tag c : UInt8} (hc : isDigit c = false) (hneg : c ≠ 45)
    (hlt : c.toNat < 128) {i : Int}
    {payload : Bytes} {b : Buffer} (h : b.rest = tag :: (ofInt i ++ c :: payload)) :
    (b.skip 1).readUntil c = (ofInt i ++ [c], b.skip ((ofInt i).length + 2)) ∧
      (b.skip ((ofInt i).length + 2)).rest = payload := by
  have hskip : ∀ n, 1 + (n + 1) = n + 2 := by omega
  constructor
  · rw [Buffer.readUntil_append hlt (not_mem_ofInt hc hneg i) (Buffer.rest_skip_cons h),
      Buffer.skip_skip, hskip]
  · have hsplit : b.rest = (tag :: (ofInt i ++ [c])) ++ payload := by simp [h]
    have hlen : (tag :: (ofInt i ++ [c])).length = (ofInt i).length + 2 := by simp
    rw [← hlen]
    exact Buffer.rest_skip_append hsplit

theorem digit_byte {i : Int} (h : 0 ≤ i ∧ i ≤ 9) :
    (UInt8.ofNat (i + 48).toNat).toNat = (i + 48).toNat := by
  rw [UInt8.toNat_ofNat']
  omega

theorem int_bounds (t : IntTy) (i : t.Val) : -2 ^ 63 ≤ i.1 ∧ (t.size ≤ 4 → i.1 < 2 ^ 63) := by
  obtain ⟨i, hi⟩ := i
  cases t <;> simp only [IntTy.InRange, IntTy.isSigned, IntTy.size, if_true,
    Bool.false_eq_true, if_false] at hi ⊢ <;>
    omega

/-- `atoll` saturates above its range, which only the values of 64 bits without a sign pass. -/
theorem int_decodes (t : IntTy) (i : t.Val) (hi : t.size ≤ 4 ∨ i.1 < 2 ^ 63) :
    Decodes t.read (intCode t i) i := by
  intro target b r hrest
  obtain ⟨hlo, hsmall⟩ := int_bounds t i
  have hhi : i.1 < 2 ^ 63 := hi.elim hsmall id
  have hsemi : isDigit tagSemicolon = false := by decide
  unfold IntTy.read IntTy.read'
  unfold intCode at hrest ⊢
  by_cases hdigit : 0 ≤ i.1 ∧ i.1 ≤ 9
  · rw [if_pos hdigit] at hrest ⊢
    have hbyte := digit_byte hdigit
    have hrange : 48 ≤ UInt8.ofNat (i.1 + 48).toNat ∧ UInt8.ofNat (i.1 + 48).toNat ≤ 57 := by
      rw [UInt8.le_iff_toNat_le, UInt8.le_iff_toNat_le, hbyte]
      simp
      omega
    have hcast : ((i.1 + 48).toNat : Int) - 48 = i.1 := by omega
    rw [Buffer.get_cons hrest]
    simp only [hrange, and_self, if_true, hbyte, hcast, IntTy.cast_of_inRange, Buffer.sentry_true,
      List.length_singleton]
  · rw [if_neg hdigit] at hrest ⊢
    rw [List.cons_append, List.append_assoc, List.singleton_append] at hrest
    obtain ⟨huntil, -⟩ := readUntil_number hsemi (by decide) (by decide) hrest
    have hlen : ∀ tag : UInt8, (tag :: (ofInt i.1 ++ [tagSemicolon])).length =
        (ofInt i.1).length + 2 := by simp
    rw [Buffer.get_cons hrest, hlen]
    by_cases hsize : t.size ≤ 4
    · have hcast : t.cast (atoi (ofInt i.1 ++ [tagSemicolon])) = i := by
        rw [atoi_ofInt hsemi [] hlo hhi, IntTy.cast_narrow t hsize, IntTy.cast_of_inRange]
      have htag : ¬ (48 ≤ tagInteger ∧ tagInteger ≤ 57) := by decide
      simp only [hsize, if_true, htag, if_false, huntil, hcast, Buffer.sentry_true]
    · have hcast : t.cast (atoll (ofInt i.1 ++ [tagSemicolon])) = i := by
        rw [atoll_ofInt hsemi [] hlo hhi, IntTy.cast_of_inRange]
      have htag : ¬ (48 ≤ tagLong ∧ tagLong ≤ 57) := by decide
      have htag' : tagLong ≠ tagInteger := by decide
      simp only [hsize, if_false, htag, htag', if_true, huntil, hcast, Buffer.sentry_true]

theorem bool_decodes (v : Bool) : Decodes readBool (boolCode v) v := by
  intro target b r hrest
  unfold readBool readBool'
  rw [Buffer.get_cons hrest]
  cases v with
  | true => rfl
  | false => rfl

theorem stringLength_false (str : Bytes) : stringLength str false = narrow str.length := by
  simp [stringLength]

theorem stringLength_bytes {str : Bytes} (h : str.length < 2 ^ 31) :
    stringLength str false = str.length := by
  rw [stringLength_false]
  exact narrow_of_int32 (by omega) (by omega)

/-- The length that is written has to be that of the bytes, which a text of other bytes
than ASCII breaks. -/
theorem string_decodes {str : Bytes} {utf8 : Bool} (flag : Bool) (h : str.length < 2 ^ 31)
    (hlen : stringLength str utf8 = str.length) :
    Decodes (fun target b => readString target flag b) (stringCode str utf8) str := by
  intro target b r hrest
  have hquote : isDigit tagQuote = false := by decide
  unfold stringCode at hrest ⊢
  simp only [readString, readString']
  by_cases hempty : str.isEmpty = true
  · rw [if_pos hempty] at hrest ⊢
    obtain rfl : str = [] := List.isEmpty_iff.mp hempty
    rw [Buffer.get_cons hrest]
    rfl
  · rw [if_neg hempty] at hrest ⊢
    have hpos : str.length ≠ 0 :=
      fun h0 => hempty (List.isEmpty_iff.mpr (List.length_eq_zero_iff.mp h0))
    rw [hlen] at hrest ⊢
    have hcode : b.rest = (if utf8 then tagString else tagBytes) :: (ofInt str.length ++
        tagQuote :: (str ++ tagQuote :: r)) := by
      rw [hrest]
      simp
    obtain ⟨huntil, hbytes⟩ := readUntil_number hquote (by decide) (by decide) hcode
    have hatoi : atoi (ofInt str.length ++ [tagQuote]) = str.length := atoi_ofNat hquote [] h
    have hreadN := Buffer.readN_append hbytes
    have hgets := Buffer.gets_cons (Buffer.rest_skip_append hbytes)
    have htag : ∀ utf8 : Bool, (if utf8 then tagString else tagBytes) ≠ tagEmpty ∧
        ¬ ((if utf8 then tagString else tagBytes) ≠ tagString ∧
          (if utf8 then tagString else tagBytes) ≠ tagBytes) := by
      decide
    obtain ⟨hne, htwo⟩ := htag utf8
    have hnonempty : (ofInt str.length ++ [tagQuote]).isEmpty = false := by simp
    have hnotle : ¬ (str.length : Int) ≤ 0 := by omega
    rw [Buffer.get_cons hcode]
    simp only [hne, if_false, htwo, huntil, hnonempty, Bool.false_eq_true, hatoi, hnotle,
      Int.toNat_natCast, hreadN, ne_eq, not_true_eq_false, hgets, Buffer.sentry_true]
    have htotal : (ofInt str.length).length + 2 + (str.length + 1) =
        ((if utf8 then tagString else tagBytes) ::
          (ofInt str.length ++ tagQuote :: (str ++ [tagQuote]))).length := by
      simp only [List.length_cons, List.length_append, List.length_nil]
      omega
    rw [Buffer.skip_skip, Buffer.skip_skip, htotal]

section Container

variable {α : Type} {default : α} {read : α → Buffer → Reading α} {code : α → Bytes}

/-- The elements of a vector, each in front of the codes of those after it. -/
theorem readElems_append (l : List α) (hl : ∀ x ∈ l, Decodes read (code x) x)
    {b : Buffer} {r : Bytes}
    (hrest : b.rest = l.flatMap code ++ r) :
    readElems default read l.length b = .ok (some l, b.skip (l.flatMap code).length) := by
  induction l generalizing b with
  | nil => rfl
  | cons x l ih =>
    rw [List.flatMap_cons, List.append_assoc] at hrest
    have hx : read default b = .ok (true, x, b.skip (code x).length) :=
      hl x (by simp) default b _ hrest
    have htail := ih (fun y hy => hl y (by simp [hy])) (Buffer.rest_skip_append hrest)
    rw [List.length_cons]
    simp only [readElems, hx, htail, Option.map_some, Buffer.skip_skip, List.flatMap_cons,
      List.length_append]

theorem vector_decodes (l : List α) (hlen : l.length < 2 ^ 31)
    (hl : ∀ x ∈ l, Decodes read (code x) x) :
    Decodes (readVector default read) (vectorCode code l) l := by
  intro target b r hrest
  have hbrace : isDigit tagOpenbrace = false := by decide
  unfold vectorCode at hrest ⊢
  simp only [readVector, readVector']
  by_cases hempty : l.length = 0
  · -- An empty vector is written without a length, and the brace is read as one of zero.
    rw [if_pos hempty] at hrest ⊢
    obtain rfl : l = [] := List.length_eq_zero_iff.mp hempty
    have hafter : (b.skip 1).rest = [] ++ tagOpenbrace :: tagClosebrace :: r :=
      Buffer.rest_skip_cons hrest
    have huntil := Buffer.readUntil_append (by decide) (by simp) hafter
    have hclose : ((b.skip 1).skip 1).rest = tagClosebrace :: r := Buffer.rest_skip_cons hafter
    have hatoi : atoi [tagOpenbrace] = 0 := by decide
    rw [Buffer.gets_cons hrest]
    simp only [huntil, List.nil_append, List.length_nil, Nat.zero_add, List.isEmpty_cons,
      Bool.false_eq_true, if_false,
      hatoi, Int.lt_irrefl, Int.toNat_zero, readElems, Buffer.gets_cons hclose, Buffer.sentry_true]
    rfl
  · rw [if_neg hempty] at hrest ⊢
    have hcode : b.rest = tagList ::
        (ofInt l.length ++ tagOpenbrace :: (l.flatMap code ++ tagClosebrace :: r)) := by
      rw [hrest]
      simp [ofInt]
    obtain ⟨huntil, helems⟩ := readUntil_number hbrace (by decide) (by decide) hcode
    have hatoi : atoi (ofInt l.length ++ [tagOpenbrace]) = l.length := atoi_ofNat hbrace [] hlen
    have hread : readElems default read l.length (b.skip ((ofInt l.length).length + 2)) =
        .ok (some l, (b.skip ((ofInt l.length).length + 2)).skip (l.flatMap code).length) :=
        readElems_append l hl helems
    have hclose := Buffer.gets_cons (Buffer.rest_skip_append helems)
    have hnonempty : (ofInt l.length ++ [tagOpenbrace]).isEmpty = false := by simp
    have hnotlt : ¬ (l.length : Int) < 0 := by omega
    rw [Buffer.gets_cons hcode]
    simp only [huntil, hnonempty, Bool.false_eq_true, if_false, hatoi, hnotlt, Int.toNat_natCast,
      hread, hclose, Buffer.sentry_true]
    have htotal : (ofInt l.length).length + 2 + ((l.flatMap code).length + 1) =
        (tagList :: (ofNat l.length ++ tagOpenbrace ::
          (l.flatMap code ++ [tagClosebrace]))).length := by
      simp only [ofInt, List.length_cons, List.length_append, List.length_nil]
      omega
    rw [Buffer.skip_skip, Buffer.skip_skip, htotal]

end Container

end Decoding

section Appended

variable {α : Type} {read : α → Buffer → Reading α} {write : Buffer → Buffer} {code : Bytes} {v : α}

/-- `Read` in front of what `Write` has appended gives the value and stops at the first
byte after it. -/
def RoundTrips (read : α → Buffer → Reading α) (write : Buffer → Buffer) (v : α) : Prop :=
  ∀ (before after : Bytes) (readPos : Nat) (target : α),
    let written := (write ⟨before, readPos⟩).s
    read target ⟨written ++ after, before.length⟩ =
      .ok (true, v, ⟨written ++ after, written.length⟩)

theorem roundTrips_of_decodes (hwrite : ∀ b, write b = b.writeBytes code)
    (h : Decodes read code v) :
    RoundTrips read write v := by
  intro before after readPos target written
  have hwritten : written = before ++ code := by
    simp only [written, hwrite]
    rfl
  have hrest : Buffer.rest ⟨written ++ after, before.length⟩ = code ++ after := by
    simp [Buffer.rest, hwritten]
  have hlen : written.length = before.length + code.length := by
    rw [hwritten, List.length_append]
  rw [hlen]
  exact h target _ after hrest

/-- In an empty buffer the code is all there is. -/
theorem RoundTrips.read_code (h : RoundTrips read write v)
    (hwrite : ∀ b, write b = b.writeBytes code)
    (target : α) : read target ⟨code, 0⟩ = .ok (true, v, ⟨code, code.length⟩) := by
  have hread := h [] [] 0 target
  simp only [hwrite, Buffer.writeBytes, List.nil_append, List.append_nil, List.length_nil] at hread
  exact hread

end Appended

section Values

/-- The types built from `int32_t`, `int64_t` and `std::string`. -/
def PlainElem : Elem → Prop
  | .integer t => t = .int32 ∨ t = .int64
  | .string => True
  | .vector e => PlainElem e

def Plain : Ty → Prop
  | .bool => True
  | .elem e => PlainElem e

/-- Every string and every vector in the value is shorter than 2^31. -/
def ShortElem : (e : Elem) → e.Val → Prop
  | .integer _ => fun _ => True
  | .string => fun str => str.length < 2 ^ 31
  | .vector e => fun l => l.length < 2 ^ 31 ∧ ∀ x ∈ l, ShortElem e x

def Short : (t : Ty) → t.Val → Prop
  | .bool => fun _ => True
  | .elem e => ShortElem e

theorem elem_decodes (e : Elem) (he : PlainElem e) (v : e.Val) (hv : ShortElem e v) :
    Decodes e.read (elemCode e v) v := by
  induction e with
  | integer t =>
    apply int_decodes
    obtain rfl | rfl := he
    · left
      decide
    · right
      exact v.2.2
  | string => exact string_decodes false hv (stringLength_bytes hv)
  | vector e ih => exact vector_decodes v hv.1 fun x hx => ih he x (hv.2 x hx)

theorem ty_decodes (t : Ty) (ht : Plain t) (v : t.Val) (hv : Short t v) :
    Decodes t.read (tyCode t v) v := by
  cases t with
  | bool => exact bool_decodes v
  | elem e => exact elem_decodes e ht v hv

/-- `Read` in front of what `Write` has appended gives the value and stops at the first
byte after it. -/
theorem read_write (t : Ty) (ht : Plain t) (v : t.Val) (hv : Short t v) (before after : Bytes)
    (readPos : Nat)
    (target : t.Val) :
    let written := (t.write v ⟨before, readPos⟩).s
    t.read target ⟨written ++ after, before.length⟩ =
      .ok (true, v, ⟨written ++ after, written.length⟩) :=
  roundTrips_of_decodes (ty_write t v) (ty_decodes t ht v hv) before after readPos target

/-- Two strings, of a quote and a NUL and of nothing, between other bytes. -/
theorem read_write_quotes :
    (Ty.elem (.vector .string)).read [] ⟨[1, 97, 50, 123, 98, 50, 34, 34, 0, 34, 101, 125, 2], 1⟩ =
      .ok (true, [[34, 0], []], ⟨[1, 97, 50, 123, 98, 50, 34, 34, 0, 34, 101, 125, 2], 12⟩) := by
  have hshort : Short (.elem (.vector .string)) [[34, 0], []] := by
    refine ⟨by decide, ?_⟩
    intro x hx
    simp only [List.mem_cons, List.not_mem_nil, or_false] at hx
    obtain rfl | rfl := hx
    · change [34, 0].length < 2 ^ 31
      decide
    · change [].length < 2 ^ 31
      decide
  exact read_write (.elem (.vector .string)) trivial [[34, 0], []] hshort [1] [2] 0 []

end Values

end Ucorf.HproseRoundTrip
