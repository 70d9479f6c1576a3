import Ucorf.BigEndian

/-!
# Error codes and message headers

Error codes as the library passes them around, and the two headers of the wire protocol: `UcorfHead`
with a magic byte, two network-order words and two length-prefixed strings, and `HproseHead` with
two network-order words only. A `std::string` is its list of bytes, a `size_t` a natural number, and
a store into a narrower field truncates. -/
namespace Ucorf.Message

open Ucorf.BigEndian

abbrev Bytes := List UInt8

/-- A 32-bit field survives the network order. -/
theorem ofNat_ofBE_toBE (x : UInt32) : UInt32.ofNat (ofBE (toBE 4 x.toNat)) = x := by
  rw [ofBE_toBE, Nat.mod_eq_of_lt (show x.toNat < 256 ^ 4 from x.toNat_lt), UInt32.ofNat_toNat]

inductive ErrorCategory where
  | system
  | ucorf
  | foreign : Nat → ErrorCategory
  deriving DecidableEq, Repr

/-- `boost::system::error_code`: it is an error when its value is not zero. -/
structure BoostEc where
  value : Int
  category : ErrorCategory
  deriving DecidableEq, Repr

def BoostEc.ok : BoostEc := ⟨0, .system⟩

def BoostEc.failed (ec : BoostEc) : Bool := ec.value ≠ 0

inductive UcorfErrorCode where
  | ecOk
  | ecSndTimeout
  | ecRcvTimeout
  | ecCallError
  | ecParseError
  | ecNoEstab
  | ecUnsupportProtocol
  | ecReqWndFull
  | ecLogicError
  deriving DecidableEq, Repr

def UcorfErrorCode.value : UcorfErrorCode → Int
  | .ecOk => 0
  | .ecSndTimeout => 1
  | .ecRcvTimeout => 2
  | .ecCallError => 3
  | .ecParseError => 4
  | .ecNoEstab => 5
  | .ecUnsupportProtocol => 6
  | .ecReqWndFull => 7
  | .ecLogicError => 8

def makeUcorfErrorCode (code : UcorfErrorCode) : BoostEc := ⟨code.value, .ucorf⟩

/-- The bytes `[off, off + n)` of a buffer. -/
def slice (buf : Bytes) (off n : Nat) : Bytes := (buf.drop off).take n

theorem slice_length (buf : Bytes) (off n : Nat) :
    (slice buf off n).length = min n (buf.length - off) := by
  simp [slice]

theorem slice_append (buf t : Bytes) {off n : Nat} (h : off + n ≤ buf.length) :
    slice (buf ++ t) off n = slice buf off n := by
  rw [slice, slice, List.drop_append_of_le_length (by omega),
    List.take_append_of_le_length (by rw [List.length_drop]; omega)]

/-- What a slice takes of a buffer and of what is behind it. -/
theorem slice_append_split (buf t : Bytes) (off n : Nat) :
    slice (buf ++ t) off n = slice buf off n ++ slice t (off - buf.length)
      (n - (buf.length - off)) := by
  rw [slice, slice, slice, List.drop_append, List.take_append, List.length_drop]

theorem slice_add (buf : Bytes) (off m n : Nat) :
    slice buf off (m + n) = slice buf off m ++ slice buf (off + m) n := by
  rw [slice, slice, slice, List.take_add, List.drop_drop]

theorem ofBE_slice_lt (buf : Bytes) (off n : Nat) : ofBE (slice buf off n) < 256 ^ n := by
  have hlen : (slice buf off n).length ≤ n := by rw [slice_length]; exact Nat.min_le_left _ _
  exact Nat.lt_of_lt_of_le (ofBE_lt _) (Nat.pow_le_pow_right (by decide) hlen)

/-- A word inside the buffer is what encoding its value writes. -/
theorem toBE_ofBE_slice {buf : Bytes} {off n : Nat} (h : off + n ≤ buf.length) :
    toBE n (ofBE (slice buf off n)) = slice buf off n := by
  have hlen : (slice buf off n).length = n := by rw [slice_length]; omega
  have hcode := toBE_ofBE (slice buf off n)
  rwa [hlen] at hcode

/-- A field read into a 32-bit word loses no bit. -/
theorem toBE_ofNat_slice {buf : Bytes} {off : Nat} (h : off + 4 ≤ buf.length) :
    toBE 4 (UInt32.ofNat (ofBE (slice buf off 4))).toNat = slice buf off 4 := by
  have hlt : ofBE (slice buf off 4) < 2 ^ 32 := ofBE_slice_lt buf off 4
  rw [UInt32.toNat_ofNat', Nat.mod_eq_of_lt hlt, toBE_ofBE_slice h]

theorem slice_middle (x y z : Bytes) : slice (x ++ (y ++ z)) x.length y.length = y := by
  simp [slice]

/-- A list is split at the first of a byte in one way. -/
theorem split_unique {c : UInt8} {x y r s : Bytes} (hx : c ∉ x) (hy : c ∉ y)
    (h : x ++ c :: r = y ++ c :: s) :
    x = y ∧ r = s := by
  have htake : ∀ {z : Bytes} (t : Bytes), c ∉ z → (z ++ c :: t).takeWhile (· != c) = z := by
    intro z t hz
    have hall : ∀ b ∈ z, (b != c) = true := by
      intro b hb
      have hne : b ≠ c := fun he => hz (he ▸ hb)
      simpa using hne
    rw [List.takeWhile_append_of_pos hall]
    simp
  have hxy : x = y := by rw [← htake r hx, h, htake s hy]
  subst hxy
  exact ⟨rfl, (List.cons.inj (List.append_cancel_left h)).2⟩

inductive HeaderType where
  | request
  | onewayRequest
  | response
  | unnamed : UInt8 → HeaderType -- the cast of a received byte that no enumerator has
  deriving DecidableEq, Repr

def HeaderType.ofByte (b : UInt8) : HeaderType :=
  if b = 0 then .request else if b = 1 then .onewayRequest else if b = 2
    then .response else .unnamed b

def HeaderType.toByte : HeaderType → UInt8
  | .request => 0
  | .onewayRequest => 1
  | .response => 2
  | .unnamed b => b

/-- The interface of the headers. `parse` returns the length of the header and
the header object as the call leaves it; length 0 means that it did not parse. -/
class IHeader (H : Type) where
  factory : H
  setId : H → Nat → H
  setType : H → HeaderType → H
  setFollowBytes : H → Nat → H
  setService : H → Bytes → H
  setMethod : H → Bytes → H
  getId : H → Nat
  getType : H → HeaderType
  getFollowBytes : H → Nat
  getService : H → Bytes
  getMethod : H → Bytes
  serialize : H → Nat → Option Bytes
  byteSize : H → Nat
  parse : H → Bytes → Nat × H

/-- A message body, as far as a sender uses it. -/
structure IMessage where
  byteSize : Nat
  serialize : Nat → Option Bytes

structure UcorfHead where
  calltype : UInt8
  callid : UInt32
  bodyLength : UInt32
  service : Bytes
  method : Bytes
  deriving DecidableEq, Repr

namespace UcorfHead

def magicCode : UInt8 := 0xf8

def factory : UcorfHead := ⟨0, 0, 0, [], []⟩

def setId (h : UcorfHead) (id : Nat) : UcorfHead := { h with callid := UInt32.ofNat id }
def setType (h : UcorfHead) (t : HeaderType) : UcorfHead := { h with calltype := t.toByte }
def setFollowBytes (h : UcorfHead) (bytes : Nat) : UcorfHead :=
  { h with bodyLength := UInt32.ofNat bytes }
def setService (h : UcorfHead) (srv : Bytes) : UcorfHead := { h with service := srv }
def setMethod (h : UcorfHead) (mthd : Bytes) : UcorfHead := { h with method := mthd }

def getId (h : UcorfHead) : Nat := h.callid.toNat
def getType (h : UcorfHead) : HeaderType := .ofByte h.calltype
def getFollowBytes (h : UcorfHead) : Nat := h.bodyLength.toNat
def getService (h : UcorfHead) : Bytes := h.service
def getMethod (h : UcorfHead) : Bytes := h.method

def byteSize (h : UcorfHead) : Nat := 1 + 1 + 4 + 4 + 4 + h.service.length + h.method.length

/-- The first fourteen bytes. The two string lengths are stored in sixteen bits each. -/
def fixed (h : UcorfHead) : Bytes :=
  magicCode :: h.calltype :: (toBE 4 h.callid.toNat ++ toBE 4 h.bodyLength.toNat ++
    toBE 2 h.service.length ++ toBE 2 h.method.length)

def bytes (h : UcorfHead) : Bytes := h.fixed ++ (h.service ++ h.method)

/-- The bytes written to a buffer of `len` bytes, or `none` when it is too short. -/
def serialize (h : UcorfHead) (len : Nat) : Option Bytes :=
  if len < h.byteSize then none else some h.bytes

/-- The last check compares the buffer length after a cast to `uint16_t`. -/
def parse (h : UcorfHead) (buf : Bytes) : Nat × UcorfHead :=
  let len := buf.length
  if len < 14 then (0, h)
  else if buf.head? ≠ some magicCode then (0, h)
  else
    let serviceLen := ofBE (slice buf 10 2)
    let methodLen := ofBE (slice buf 12 2)
    if len % 2 ^ 16 < 14 + serviceLen + methodLen then (0, h)
    else (14 + serviceLen + methodLen,
      { calltype := buf.getD 1 0
        callid := UInt32.ofNat (ofBE (slice buf 2 4))
        bodyLength := UInt32.ofNat (ofBE (slice buf 6 4))
        service := slice buf 14 serviceLen
        method := slice buf (14 + serviceLen) methodLen })

@[simp] theorem fixed_length (h : UcorfHead) : h.fixed.length = 14 := rfl

theorem bytes_length (h : UcorfHead) : h.bytes.length = h.byteSize := by
  simp only [bytes, byteSize, List.length_append, fixed_length]
  omega

theorem serialize_byteSize (h : UcorfHead) : h.serialize h.byteSize = some h.bytes := by
  simp [serialize]

/-- When a buffer parses, and the two sizes that its bytes give. -/
theorem parse_ne_zero {h₀ : UcorfHead} {buf : Bytes} : (h₀.parse buf).1 ≠ 0 ↔
    14 ≤ buf.length ∧ buf.head? = some magicCode ∧
      14 + ofBE (slice buf 10 2) + ofBE (slice buf 12 2) ≤ buf.length % 2 ^ 16 := by
  unfold parse
  dsimp only
  by_cases h₁ : buf.length < 14
  · rw [if_pos h₁]
    exact iff_of_false (fun h => h rfl) fun h => by omega
  by_cases h₂ : buf.head? ≠ some magicCode
  · rw [if_neg h₁, if_pos h₂]
    exact iff_of_false (fun h => h rfl) fun h => h₂ h.2.1
  by_cases h₃ : buf.length % 2 ^ 16 < 14 + ofBE (slice buf 10 2) + ofBE (slice buf 12 2)
  · rw [if_neg h₁, if_neg h₂, if_pos h₃]
    exact iff_of_false (fun h => h rfl) fun h => by omega
  · rw [if_neg h₁, if_neg h₂, if_neg h₃]
    exact iff_of_true (by simp) ⟨Nat.le_of_not_lt h₁, not_not.mp h₂, Nat.le_of_not_lt h₃⟩

/-- A successful parse has consumed exactly its own size, and that size passed
the check against the low sixteen bits of the buffer length. -/
theorem parse_sound {h₀ : UcorfHead} {buf : Bytes} (hp : (h₀.parse buf).1 ≠ 0) :
    (h₀.parse buf).1 = (h₀.parse buf).2.byteSize ∧
    (h₀.parse buf).2.byteSize ≤ buf.length % 2 ^ 16 := by
  obtain ⟨hlen, hmagic, hsize⟩ := parse_ne_zero.mp hp
  have hle : buf.length % 2 ^ 16 ≤ buf.length := Nat.mod_le _ _
  unfold parse
  dsimp only
  rw [if_neg (Nat.not_lt.mpr hlen), if_neg (not_not.mpr hmagic), if_neg (Nat.not_lt.mpr hsize)]
  simp only [byteSize, slice_length]
  omega

theorem parse_sizes {h₀ : UcorfHead} {buf : Bytes} (hp : (h₀.parse buf).1 ≠ 0) :
    (h₀.parse buf).1 = 14 + ofBE (slice buf 10 2) + ofBE (slice buf 12 2) ∧
      (h₀.parse buf).2.getFollowBytes = ofBE (slice buf 6 4) := by
  obtain ⟨hlen, hmagic, hsize⟩ := parse_ne_zero.mp hp
  have hlt : ofBE (slice buf 6 4) < 2 ^ 32 := ofBE_slice_lt buf 6 4
  unfold parse
  dsimp only
  rw [if_neg (Nat.not_lt.mpr hlen), if_neg (not_not.mpr hmagic), if_neg (Nat.not_lt.mpr hsize)]
  refine ⟨rfl, ?_⟩
  rw [getFollowBytes, UInt32.toNat_ofNat', Nat.mod_eq_of_lt hlt]

theorem parse_zero {h₀ : UcorfHead} {buf : Bytes} (hp : (h₀.parse buf).1 = 0) :
    (h₀.parse buf).2 = h₀ := by
  simp only [parse] at hp ⊢
  split
  · rfl
  · split
    · rfl
    · split
      · rfl
      · rename_i h₁ h₂ h₃
        rw [if_neg h₁, if_neg h₂, if_neg h₃] at hp
        simp at hp

/-- The header that a parse found has the consumed bytes as its own bytes. -/
theorem bytes_of_parse {h₀ : UcorfHead} {buf : Bytes} (hp : (h₀.parse buf).1 ≠ 0) :
    (h₀.parse buf).2.bytes = buf.take (h₀.parse buf).1 := by
  obtain ⟨hlen, hhead, hsize⟩ := parse_ne_zero.mp hp
  have hmod : buf.length % 2 ^ 16 ≤ buf.length := Nat.mod_le _ _
  have hid : toBE 4 (UInt32.ofNat (ofBE (slice buf 2 4))).toNat = slice buf 2 4 :=
    toBE_ofNat_slice (by omega)
  have hbody : toBE 4 (UInt32.ofNat (ofBE (slice buf 6 4))).toNat = slice buf 6 4 :=
    toBE_ofNat_slice (by omega)
  have hsl : (slice buf 14 (ofBE (slice buf 10 2))).length = ofBE (slice buf 10 2) := by
    rw [slice_length]
    omega
  have hml : (slice buf (14 + ofBE (slice buf 10 2)) (ofBE (slice buf 12 2))).length =
      ofBE (slice buf 12 2) := by
    rw [slice_length]
    omega
  have hmagic : [magicCode, buf.getD 1 0] = slice buf 0 2 := by
    match buf, hlen, hhead with
    | a :: b :: _, _, hhead =>
      obtain rfl : a = magicCode := by simpa using hhead
      rfl
  have htake : buf.take (14 + ofBE (slice buf 10 2) + ofBE (slice buf 12 2)) =
      slice buf 0 (2 + 4 + 4 + 2 + 2 + ofBE (slice buf 10 2) + ofBE (slice buf 12 2)) := rfl
  unfold parse
  dsimp only
  rw [if_neg (Nat.not_lt.mpr hlen), if_neg (not_not.mpr hhead), if_neg (Nat.not_lt.mpr hsize)]
  dsimp only
  rw [htake, slice_add, slice_add, slice_add, slice_add, slice_add, slice_add, ← hmagic]
  simp only [bytes, fixed, hid, hbody, hsl, hml, Nat.zero_add, List.cons_append, List.nil_append,
    List.append_assoc]
  rw [toBE_ofBE_slice (by omega), toBE_ofBE_slice (by omega)]

theorem fixed_prefix {h : UcorfHead} {buf t u : Bytes} (hb : buf ++ t = h.bytes ++ u)
    (hlen : 14 ≤ buf.length) : ∃ r, buf = h.fixed ++ r ∧ r ++ t = h.service ++ (h.method ++ u) := by
  have htake := congrArg (List.take 14) hb
  rw [List.take_append_of_le_length hlen, bytes, List.append_assoc,
    List.take_left' (fixed_length h)] at htake
  have hbuf : buf = h.fixed ++ buf.drop 14 := by rw [← htake, List.take_append_drop]
  refine ⟨buf.drop 14, hbuf, ?_⟩
  rw [hbuf, bytes, List.append_assoc, List.append_assoc, List.append_assoc] at hb
  exact List.append_cancel_left hb

/-- On a buffer that agrees with a header's own bytes, a parse finds that header
exactly when the low sixteen bits of the buffer length reach its size. -/
theorem parse_bytes {h : UcorfHead} {buf t u : Bytes} (h₀ : UcorfHead)
    (hb : buf ++ t = h.bytes ++ u)
    (hs : h.service.length < 2 ^ 16) (hm : h.method.length < 2 ^ 16) :
    h₀.parse buf = if buf.length % 2 ^ 16 < h.byteSize then (0, h₀) else (h.byteSize, h) := by
  have hmod : buf.length % 2 ^ 16 ≤ buf.length := Nat.mod_le _ _
  by_cases hlen : buf.length < 14
  · have hlt : buf.length % 2 ^ 16 < h.byteSize := by simp only [byteSize]; omega
    rw [if_pos hlt]
    simp only [parse, if_pos hlen]
  obtain ⟨r, rfl, hr⟩ := fixed_prefix hb (by omega)
  have hhead : (h.fixed ++ r).head? = some magicCode := rfl
  have htype : (h.fixed ++ r).getD 1 0 = h.calltype := rfl
  have hid : slice (h.fixed ++ r) 2 4 = toBE 4 h.callid.toNat := rfl
  have hbody : slice (h.fixed ++ r) 6 4 = toBE 4 h.bodyLength.toNat := rfl
  have hsl : ofBE (slice (h.fixed ++ r) 10 2) = h.service.length :=
    (ofBE_toBE 2 _).trans (Nat.mod_eq_of_lt hs)
  have hml : ofBE (slice (h.fixed ++ r) 12 2) = h.method.length :=
    (ofBE_toBE 2 _).trans (Nat.mod_eq_of_lt hm)
  have hsize : 14 + h.service.length + h.method.length = h.byteSize := rfl
  simp only [parse, if_neg hlen, hhead, hsl, hml, hsize, ne_eq, not_true_eq_false, if_false]
  split
  · rfl
  · -- both strings lie inside the buffer
    have hrlen : h.service.length + h.method.length ≤ r.length := by
      have hlr : (h.fixed ++ r).length = 14 + r.length := by rw [List.length_append, fixed_length]
      omega
    have hsrv : slice (h.fixed ++ r) 14 h.service.length = h.service := by
      have hmid := slice_middle h.fixed h.service (h.method ++ u)
      rw [← hr, ← List.append_assoc, fixed_length] at hmid
      rwa [slice_append _ t (by rw [List.length_append, fixed_length]; omega)] at hmid
    have hmth : slice (h.fixed ++ r) (14 + h.service.length) h.method.length = h.method := by
      have hmid := slice_middle (h.fixed ++ h.service) h.method u
      rw [List.append_assoc, ← hr, ← List.append_assoc, List.length_append, fixed_length] at hmid
      rwa [slice_append _ t (by rw [List.length_append, fixed_length]; omega)] at hmid
    rw [htype, hid, hbody, hsrv, hmth, ofNat_ofBE_toBE, ofNat_ofBE_toBE]

theorem slice_callid {h : UcorfHead} {buf t u : Bytes} (hb : buf ++ t = h.bytes ++ u)
    (hlen : 14 ≤ buf.length) :
    slice buf 2 4 = toBE 4 h.callid.toNat := by
  obtain ⟨r, rfl, -⟩ := fixed_prefix hb hlen
  rfl

/-- A parse at the start of a header's own bytes finds its call id, whatever the strings are. -/
theorem parse_callid {h : UcorfHead} {buf t u : Bytes} (h₀ : UcorfHead)
    (hb : buf ++ t = h.bytes ++ u)
    (hp : (h₀.parse buf).1 ≠ 0) : (h₀.parse buf).2.callid = h.callid := by
  simp only [parse] at hp ⊢
  split at hp
  · exact absurd rfl hp
  · split at hp
    · exact absurd rfl hp
    · split at hp
      · exact absurd rfl hp
      · rename_i h₁ h₂ h₃
        rw [if_neg h₁, if_neg h₂, if_neg h₃]
        simp only [slice_callid hb (Nat.le_of_not_lt h₁), ofNat_ofBE_toBE]

end UcorfHead

instance : IHeader UcorfHead where
  factory := UcorfHead.factory
  setId := UcorfHead.setId
  setType := UcorfHead.setType
  setFollowBytes := UcorfHead.setFollowBytes
  setService := UcorfHead.setService
  setMethod := UcorfHead.setMethod
  getId := UcorfHead.getId
  getType := UcorfHead.getType
  getFollowBytes := UcorfHead.getFollowBytes
  getService := UcorfHead.getService
  getMethod := UcorfHead.getMethod
  serialize := UcorfHead.serialize
  byteSize := UcorfHead.byteSize
  parse := UcorfHead.parse

structure HproseHead where
  callid : UInt32
  bodyLength : UInt32
  deriving DecidableEq, Repr

namespace HproseHead

def factory : HproseHead := ⟨0, 0⟩

def setId (h : HproseHead) (id : Nat) : HproseHead := { h with callid := UInt32.ofNat id }
def setFollowBytes (h : HproseHead) (bytes : Nat) : HproseHead :=
  { h with bodyLength := UInt32.ofNat bytes }
def setType (h : HproseHead) (_ : HeaderType) : HproseHead := h
def setService (h : HproseHead) (_ : Bytes) : HproseHead := h
def setMethod (h : HproseHead) (_ : Bytes) : HproseHead := h

def getId (h : HproseHead) : Nat := h.callid.toNat
def getType (_ : HproseHead) : HeaderType := .request
def getFollowBytes (h : HproseHead) : Nat := h.bodyLength.toNat
/-- The bytes of "hprose". -/
def getService (_ : HproseHead) : Bytes := [104, 112, 114, 111, 115, 101]
def getMethod (_ : HproseHead) : Bytes := []

def byteSize (_ : HproseHead) : Nat := 8

def bytes (h : HproseHead) : Bytes := toBE 4 h.bodyLength.toNat ++ toBE 4 h.callid.toNat

def serialize (h : HproseHead) (len : Nat) : Option Bytes :=
  if len < 8 then none else some h.bytes

def parse (h : HproseHead) (buf : Bytes) : Nat × HproseHead :=
  if buf.length < 8 then (0, h)
  else (8, ⟨UInt32.ofNat (ofBE (slice buf 4 4)), UInt32.ofNat (ofBE (slice buf 0 4))⟩)

theorem bytes_length (h : HproseHead) : h.bytes.length = 8 := by
  simp [bytes]

theorem parse_bytes {h : HproseHead} {buf t u : Bytes} (h₀ : HproseHead)
    (hb : buf ++ t = h.bytes ++ u)
    (hp : (h₀.parse buf).1 ≠ 0) : (h₀.parse buf).2 = h := by
  simp only [parse] at hp ⊢
  split at hp
  · exact absurd rfl hp
  · rename_i hlen
    have htake := congrArg (List.take 8) hb
    rw [List.take_append_of_le_length (by omega), List.take_left' (bytes_length h)] at htake
    have hbuf : buf = h.bytes ++ buf.drop 8 := by rw [← htake, List.take_append_drop]
    have hbody : slice (h.bytes ++ buf.drop 8) 0 4 = toBE 4 h.bodyLength.toNat := rfl
    have hid : slice (h.bytes ++ buf.drop 8) 4 4 = toBE 4 h.callid.toNat := rfl
    rw [if_neg hlen, hbuf, hbody, hid, ofNat_ofBE_toBE, ofNat_ofBE_toBE]

end HproseHead

instance : IHeader HproseHead where
  factory := HproseHead.factory
  setId := HproseHead.setId
  setType := HproseHead.setType
  setFollowBytes := HproseHead.setFollowBytes
  setService := HproseHead.setService
  setMethod := HproseHead.setMethod
  getId := HproseHead.getId
  getType := HproseHead.getType
  getFollowBytes := HproseHead.getFollowBytes
  getService := HproseHead.getService
  getMethod := HproseHead.getMethod
  serialize := HproseHead.serialize
  byteSize := HproseHead.byteSize
  parse := HproseHead.parse

end Ucorf.Message
