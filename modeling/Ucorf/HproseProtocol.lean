import Ucorf.Decimal
import Ucorf.Message

/-!
# The serialization of hprose

`Buffer` with its `Read` and `Write` for the integer types, `bool`, `std::string` and the
vectors over them. A `get` past the end, `-1` in the source, is `none`; a `size_t` is a
natural number.
-/
namespace Ucorf.HproseProtocol

open Ucorf.Message
open Ucorf.Decimal

def tagInteger : UInt8 := 105
def tagLong : UInt8 := 108
def tagEmpty : UInt8 := 101
def tagTrue : UInt8 := 116
def tagFalse : UInt8 := 102
def tagBytes : UInt8 := 98
def tagString : UInt8 := 115
def tagList : UInt8 := 97
def tagSemicolon : UInt8 := 59
def tagOpenbrace : UInt8 := 123
def tagClosebrace : UInt8 := 125
def tagQuote : UInt8 := 34
def tagFunctions : UInt8 := 70
def tagCall : UInt8 := 67
def tagResult : UInt8 := 82
def tagError : UInt8 := 69
def tagEnd : UInt8 := 122

inductive IntTy where
  | int8 | int16 | int32 | int64
  | uint8 | uint16 | uint32 | uint64
  deriving DecidableEq, Repr

namespace IntTy

/-- `sizeof`. -/
def size : IntTy → Nat
  | .int8 | .uint8 => 1
  | .int16 | .uint16 => 2
  | .int32 | .uint32 => 4
  | .int64 | .uint64 => 8

def isSigned : IntTy → Bool
  | .int8 | .int16 | .int32 | .int64 => true
  | .uint8 | .uint16 | .uint32 | .uint64 => false

def InRange (t : IntTy) (i : Int) : Prop :=
  if t.isSigned then -2 ^ (8 * t.size - 1) ≤ i ∧ i < 2 ^ (8 * t.size - 1) else 0 ≤ i ∧
    i < 2 ^ (8 * t.size)

/-- The values of the type. -/
abbrev Val (t : IntTy) : Type := { i : Int // t.InRange i }

/-- A cast gives a value of the type. -/
theorem inRange_cast (t : IntTy) (i : Int) :
    t.InRange (if t.isSigned then i.bmod (2 ^ (8 * t.size)) else i % 2 ^ (8 * t.size)) := by
  have hpos : 0 < 2 ^ (8 * t.size) := Nat.two_pow_pos _
  have hlo := Int.le_bmod (x := i) hpos
  have hhi := Int.bmod_lt (x := i) hpos
  cases t <;> simp only [InRange, isSigned, size, if_true, Bool.false_eq_true,
    if_false] at hlo hhi ⊢ <;> omega

/-- The conversion to the type keeps the low bits. -/
def cast (t : IntTy) (i : Int) : t.Val :=
  ⟨if t.isSigned then i.bmod (2 ^ (8 * t.size)) else i % 2 ^ (8 * t.size), t.inRange_cast i⟩

/-- A value of the type stays as it is. -/
theorem cast_of_inRange (t : IntTy) (i : t.Val) : t.cast i.1 = i := by
  obtain ⟨i, hi⟩ := i
  apply Subtype.ext
  have hsigned : -((2 ^ (8 * t.size) : Nat) / 2) ≤ i → i < ((2 ^ (8 * t.size) : Nat) + 1) / 2 →
      i.bmod (2 ^ (8 * t.size)) = i := Int.bmod_eq_of_le
  cases t <;> simp only [InRange, cast, isSigned, size, if_true, Bool.false_eq_true,
    if_false] at hi hsigned ⊢ <;> omega

/-- The types of 32 bits and less do not see what `atoi` drops. -/
theorem cast_narrow (t : IntTy) (ht : t.size ≤ 4) (i : Int) : t.cast (narrow i) = t.cast i := by
  unfold narrow
  apply Subtype.ext
  have hdvd : 2 ^ (8 * t.size) ∣ 2 ^ 32 := Nat.pow_dvd_pow 2 (by omega)
  have hemod : i.bmod (2 ^ 32) % (2 ^ 32 : Nat) = i % (2 ^ 32 : Nat) := Int.bmod_emod
  have hsigned : (i.bmod (2 ^ 32)).bmod (2 ^ (8 * t.size)) = i.bmod (2 ^ (8 * t.size)) :=
    Int.bmod_bmod_of_dvd hdvd
  cases t <;> simp only [size] at ht hsigned <;>
    simp only [cast, isSigned, size, if_true, Bool.false_eq_true, if_false, hsigned] <;> omega

end IntTy

/-- The types that a vector holds. -/
inductive Elem where
  | integer : IntTy → Elem
  | string : Elem
  | vector : Elem → Elem
  deriving DecidableEq, Repr

@[reducible] def Elem.Val : Elem → Type
  | .integer t => t.Val
  | .string => Bytes
  | .vector e => List e.Val

/-- What the default constructor gives. -/
def Elem.default : (e : Elem) → e.Val
  | .integer t => t.cast 0
  | .string => []
  | .vector _ => []

inductive Ty where
  | bool : Ty
  | elem : Elem → Ty
  deriving DecidableEq, Repr

@[reducible] def Ty.Val : Ty → Type
  | .bool => Bool
  | .elem e => e.Val

def Ty.default : (t : Ty) → t.Val
  | .bool => false
  | .elem e => e.default

structure Buffer where
  s : Bytes
  readPos : Nat

/-- What leaves a read other than by a return. -/
inductive StdException where
  | lengthError
  | outOfRange
  deriving DecidableEq, Repr

/-- What a `Read` returns, and the target and the buffer that it leaves. -/
abbrev Reading (α : Type) := Except StdException (Bool × α × Buffer)

namespace Buffer

def empty : Buffer := ⟨[], 0⟩

/-- The bytes from `read_pos_` on. -/
def rest (b : Buffer) : Bytes := b.s.drop b.readPos

def skip (b : Buffer) (n : Nat) : Buffer := { b with readPos := b.readPos + n }

def get (b : Buffer) : Option UInt8 × Buffer :=
  match b.s[b.readPos]? with
  | none => (none, b)
  | some v => (some v, b.skip 1)

/-- The destructor of `rb_sentry`, for a read that commits when it returns true. -/
def sentry {α : Type} (b : Buffer) : Reading α → Reading α
  | .error e => .error e
  | .ok (true, target, b') => .ok (true, target, b')
  | .ok (false, target, b') => .ok (false, target, { b' with readPos := b.readPos })

/-- How many bytes the loop of `ReadUntil` gets; a `char` is compared as a signed number. -/
def untilDelim (c : UInt8) : Bytes → Option Nat
  | [] => none
  | v :: rest => if (v.toNat : Int) = c.toInt8.toInt then some 1
      else (untilDelim c rest).map (· + 1)

/-- The delimiter is part of the result. -/
def readUntil (c : UInt8) (b : Buffer) : Bytes × Buffer :=
  match untilDelim c b.rest with
  | none => ([], b)
  | some n => (b.rest.take n, b.skip n)

/-- The last byte of the buffer is never among the bytes that it takes. -/
def readN (n : Nat) (b : Buffer) : Bytes × Buffer :=
  if b.readPos + n < b.s.length then (b.rest.take n, b.skip n) else ([], b)

def write (b : Buffer) (c : UInt8) : Buffer := { b with s := b.s ++ [c] }

def writeBytes (b : Buffer) (s : Bytes) : Buffer := { b with s := b.s ++ s }

section Cursor

variable {b : Buffer}

@[simp] theorem skip_skip (m n : Nat) : (b.skip m).skip n = b.skip (m + n) := by
  simp [skip, Nat.add_assoc]

theorem rest_skip (n : Nat) : (b.skip n).rest = b.rest.drop n := by
  simp [rest, skip]

/-- Behind what was read is the rest. -/
theorem rest_skip_append {p r : Bytes} (h : b.rest = p ++ r) : (b.skip p.length).rest = r := by
  rw [rest_skip, h, List.drop_left]

theorem rest_skip_cons {c : UInt8} {r : Bytes} (h : b.rest = c :: r) : (b.skip 1).rest = r :=
  rest_skip_append (p := [c]) h

theorem get_cons {c : UInt8} {r : Bytes} (h : b.rest = c :: r) : b.get = (some c, b.skip 1) := by
  have hget : b.s[b.readPos]? = some c := by
    have hrest : (b.s.drop b.readPos)[0]? = some c := by
      change b.rest[0]? = some c
      rw [h]
      rfl
    rw [List.getElem?_drop] at hrest
    exact hrest
  simp only [get, hget]

/-- For a delimiter below 128 the comparison is that of the bytes. -/
theorem delim_iff {c v : UInt8} (hc : c.toNat < 128) :
    (v.toNat : Int) = c.toInt8.toInt ↔ v = c := by
  have hint : c.toInt8.toInt = (c.toNat : Int) := by
    have hlt : 2 * c.toBitVec.toNat < 2 ^ 8 := by
      rw [UInt8.toNat_toBitVec]
      omega
    exact BitVec.toInt_eq_toNat_of_lt hlt
  rw [hint, ← UInt8.toNat_inj]
  exact Int.ofNat_inj

/-- A delimiter from 128 on is negative, so that no byte is equal to it. -/
theorem toInt8_neg {c : UInt8} (hc : 128 ≤ c.toNat) : c.toInt8.toInt < 0 := by
  have hlt := c.toNat_lt
  have hint : c.toInt8.toInt = (c.toNat : Int) - 256 := by
    have hcond := BitVec.toInt_eq_toNat_cond c.toBitVec
    rw [UInt8.toNat_toBitVec, if_neg (by omega)] at hcond
    exact hcond
  omega

/-- Only an ASCII byte compares equal as a `char`, and only to itself. -/
theorem eq_of_delim {c v : UInt8} (h : (v.toNat : Int) = c.toInt8.toInt) : v = c := by
  by_cases hc : c.toNat < 128
  · exact (delim_iff hc).mp h
  · have hneg := toInt8_neg (Nat.le_of_not_lt hc)
    omega

theorem untilDelim_append {c : UInt8} (hc : c.toNat < 128) {p : Bytes} (hp : c ∉ p) (r : Bytes) :
    untilDelim c (p ++ c :: r) = some (p.length + 1) := by
  induction p with
  | nil => simp [untilDelim, delim_iff hc]
  | cons v p ih =>
    have hv : v ≠ c := fun h => hp (by simp [h])
    have hrest : c ∉ p := fun h => hp (by simp [h])
    simp [untilDelim, delim_iff hc, hv, ih hrest]

/-- Up to a delimiter that comes for the first time, and over it. -/
theorem readUntil_append {c : UInt8} (hc : c.toNat < 128) {p r : Bytes} (hp : c ∉ p)
    (h : b.rest = p ++ c :: r) :
    b.readUntil c = (p ++ [c], b.skip (p.length + 1)) := by
  have htake : (p ++ c :: r).take (p.length + 1) = p ++ [c] := by
    have hsplit : p ++ c :: r = (p ++ [c]) ++ r := by simp
    rw [hsplit]
    exact List.take_left' (by simp)
  simp only [readUntil, h, untilDelim_append hc hp, htake]

/-- One more byte has to be there. -/
theorem readN_append {c : UInt8} {p r : Bytes} (h : b.rest = p ++ c :: r) :
    b.readN p.length = (p, b.skip p.length) := by
  have hlen : b.s.length - b.readPos = p.length + (r.length + 1) := by
    have := congrArg List.length h
    simpa [rest] using this
  have hlt : b.readPos + p.length < b.s.length := by omega
  rw [readN, if_pos hlt, h, List.take_left]

end Cursor

section Sentry

variable {α : Type} {b : Buffer}

@[simp] theorem sentry_true (target : α) (b' : Buffer) :
    b.sentry (.ok (true, target, b')) = .ok (true, target, b') := rfl

/-- A failed reading goes back to where it began. -/
@[simp] theorem sentry_false (target : α) (b' : Buffer) :
    b.sentry (.ok (false, target, b')) = .ok (false, target, { b' with readPos := b.readPos }) :=
    rfl

@[simp] theorem sentry_error (e : StdException) : b.sentry (.error e : Reading α) = .error e := rfl

end Sentry

end Buffer

section Reads

/-- `__Read(Integer &)`. -/
def IntTy.read' (t : IntTy) (target : t.Val) (b : Buffer) : Reading t.Val :=
  match b.get with
  | (none, b) => .ok (false, target, b)
  | (some v, b) =>
    if 48 ≤ v ∧ v ≤ 57 then .ok (true, t.cast (v.toNat - 48), b)
    else if v = tagInteger then
      let (s, b) := b.readUntil tagSemicolon
      .ok (true, t.cast (atoi s), b)
    else if v = tagLong then
      let (s, b) := b.readUntil tagSemicolon
      .ok (true, t.cast (atoll s), b)
    else .ok (false, target, b)

def IntTy.read (t : IntTy) (target : t.Val) (b : Buffer) : Reading t.Val :=
  b.sentry (t.read' target b)

/-- `__Read(bool &)`. -/
def readBool' (target : Bool) (b : Buffer) : Reading Bool :=
  match b.get with
  | (none, b) => .ok (false, target, b)
  | (some v, b) =>
    if v = tagTrue then .ok (true, true, b)
    else if v = tagFalse then .ok (true, false, b)
    else .ok (false, target, b)

def readBool (target : Bool) (b : Buffer) : Reading Bool := b.sentry (readBool' target b)

/-- `get() == c`. -/
def Buffer.gets (c : UInt8) (b : Buffer) : Bool × Buffer :=
  match b.get with
  | (v, b) => (v = some c, b)

theorem Buffer.gets_cons {b : Buffer} {c : UInt8} {r : Bytes} (h : b.rest = c :: r) :
    b.gets c = (true, b.skip 1) := by
  simp [gets, get_cons h]

/-- `__Read(std::string &)` where `utf8` is false. -/
def readString' (target : Bytes) (b : Buffer) : Reading Bytes :=
  match b.get with
  | (none, b) => .ok (false, target, b)
  | (some v, b) =>
    if v = tagEmpty then .ok (true, [], b)
    else if v ≠ tagString ∧ v ≠ tagBytes then .ok (false, target, b)
    else
      let (lenS, b) := b.readUntil tagQuote
      if lenS.isEmpty then
        match b.gets tagQuote with
        | (true, b) => .ok (true, [], b)
        | (false, b) => .ok (false, target, b)
      else
        let len := atoi lenS
        if len ≤ 0 then .ok (false, target, b)
        else
          let (bin, b) := b.readN len.toNat
          if bin.length ≠ len.toNat then .ok (false, target, b)
          else
            match b.gets tagQuote with
            | (true, b) => .ok (true, bin, b)
            | (false, b) => .ok (false, target, b)

/-- `__Read` is called without the flag, so that it is false there. -/
def readString (target : Bytes) (_utf8 : Bool) (b : Buffer) : Reading Bytes :=
  b.sentry (readString' target b)

section Container

variable {α : Type} (default : α) (read : α → Buffer → Reading α)

/-- The elements that `resize` makes are read one after the other, `none` once one fails. -/
def readElems : Nat → Buffer → Except StdException (Option (List α) × Buffer)
  | 0, b => .ok (some [], b)
  | n + 1, b =>
    match read default b with
    | .error e => .error e
    | .ok (false, _, b) => .ok (none, b)
    | .ok (true, x, b) =>
      match readElems n b with
      | .error e => .error e
      | .ok (xs, b) => .ok (xs.map (x :: ·), b)

/-- `__Read(Container &)`; a negative length is past `max_size()` as the `size_t` of `resize`. -/
def readVector' (target : List α) (b : Buffer) : Reading (List α) :=
  match b.gets tagList with
  | (false, b) => .ok (false, target, b)
  | (true, b) =>
    let (lenS, b) := b.readUntil tagOpenbrace
    if lenS.isEmpty then
      match b.gets tagClosebrace with
      | (true, b) => .ok (true, [], b)
      | (false, b) => .ok (false, target, b)
    else
      let len := atoi lenS
      if len < 0 then .error .lengthError
      else
        match readElems default read len.toNat b with
        | .error e => .error e
        | .ok (none, b) => .ok (false, target, b)
        | .ok (some c, b) =>
          match b.gets tagClosebrace with
          | (true, b) => .ok (true, c, b)
          | (false, b) => .ok (false, target, b)

def readVector (target : List α) (b : Buffer) : Reading (List α) :=
  b.sentry (readVector' default read target b)

end Container

def Elem.read : (e : Elem) → e.Val → Buffer → Reading e.Val
  | .integer t => t.read
  | .string => fun target b => readString target false b
  | .vector e => readVector e.default e.read

def Ty.read : (t : Ty) → t.Val → Buffer → Reading t.Val
  | .bool => readBool
  | .elem e => e.read

end Reads

section Writes

def IntTy.write (t : IntTy) (i : t.Val) (b : Buffer) : Buffer :=
  if 0 ≤ i.1 ∧ i.1 ≤ 9 then b.write (UInt8.ofNat (i.1 + 48).toNat)
  else ((b.write (if t.size ≤ 4 then tagInteger else tagLong)).writeBytes (ofInt i.1)).write
    tagSemicolon

def writeBool (v : Bool) (b : Buffer) : Buffer := b.write (if v then tagTrue else tagFalse)

/-- The leading ones of a byte, seven at most. -/
def followBytes (leader : UInt8) : Nat :=
  ((List.range 7).find? fun i => !leader.toNat.testBit (7 - i)).getD 7

/-- The loop of `utf8_char_count` with `skip` bytes to pass over before the next leader. -/
def countChars : Nat → Bytes → Nat
  | _, [] => 0
  | 0, leader :: str => countChars (followBytes leader) str + 1
  | skip + 1, _ :: str => countChars skip str

def utf8CharCount (str : Bytes) : Nat := countChars 0 str

/-- The `len` that is written, an `int`. -/
def stringLength (str : Bytes) (utf8 : Bool) : Int :=
  narrow (if utf8 then utf8CharCount str else str.length : Nat)

def writeString (str : Bytes) (utf8 : Bool) (b : Buffer) : Buffer :=
  if str.isEmpty then b.write tagEmpty
  else
    ((((b.write (if utf8 then tagString else tagBytes)).writeBytes
      (ofInt (stringLength str utf8))).write
      tagQuote).writeBytes str).write tagQuote

def writeVector {α : Type} (write : α → Buffer → Buffer) (container : List α)
    (b : Buffer) : Buffer :=
  let b := b.write tagList
  if container.length = 0 then (b.write tagOpenbrace).write tagClosebrace
  else
    let b := (b.writeBytes (ofNat container.length)).write tagOpenbrace
    (container.foldl (fun b elem => write elem b) b).write tagClosebrace

def Elem.write : (e : Elem) → e.Val → Buffer → Buffer
  | .integer t => t.write
  | .string => fun str b => writeString str false b
  | .vector e => writeVector e.write

def Ty.write : (t : Ty) → t.Val → Buffer → Buffer
  | .bool => writeBool
  | .elem e => e.write

end Writes

end Ucorf.HproseProtocol
