import Ucorf.Message

/-!
# What a header can carry

`UcorfHead::Serialize` stores the lengths of its two strings in sixteen bits each and
refuses nothing but a short buffer, and `Parse` compares the buffer length after a cast
to sixteen bits. So the header comes back exactly when its own size fits those bits.
In the other direction nothing is lost: whatever bytes `Parse` accepts are the bytes of
the header it leaves, and it reads no others.
-/
namespace Ucorf.HeaderCodec

open Ucorf.Message

/-- What `Serialize` writes when it is given `ByteSize()` bytes is parsed back. -/
def Decodable (h : UcorfHead) : Prop :=
  ∀ buf, h.serialize h.byteSize = some buf → ∀ h₀ : UcorfHead, h₀.parse buf = (h.byteSize, h)

theorem decodable_of_fits {h : UcorfHead} (hsize : h.byteSize < 2 ^ 16) : Decodable h := by
  intro buf hbuf h₀
  obtain rfl : h.bytes = buf := Option.some.inj (h.serialize_byteSize.symm.trans hbuf)
  have hlens : h.byteSize = 14 + h.service.length + h.method.length := rfl
  have hparse :=
    UcorfHead.parse_bytes h₀ (show h.bytes ++ [] = h.bytes ++ [] from rfl) (by omega) (by omega)
  rw [hparse, UcorfHead.bytes_length, Nat.mod_eq_of_lt hsize, if_neg (Nat.lt_irrefl _)]

/-- A longer header does not pass the check of `Parse` against its own length. -/
theorem fits_of_decodable {h : UcorfHead} (hd : Decodable h) : h.byteSize < 2 ^ 16 := by
  have hparse := hd h.bytes h.serialize_byteSize UcorfHead.factory
  have hne : (UcorfHead.factory.parse h.bytes).1 ≠ 0 := by
    rw [hparse]
    simp only [UcorfHead.byteSize]
    omega
  obtain ⟨-, hle⟩ := UcorfHead.parse_sound hne
  rw [hparse] at hle
  exact Nat.lt_of_le_of_lt hle (Nat.mod_lt _ (by decide))

theorem decodable_iff (h : UcorfHead) : Decodable h ↔ h.byteSize < 2 ^ 16 :=
  ⟨fits_of_decodable, decodable_of_fits⟩

theorem not_decodable_of_long {service : Bytes} (h : service.length = 2 ^ 16) :
    ¬ Decodable ⟨0, 1, 0, service, []⟩ := by
  intro hd
  have hsize : UcorfHead.byteSize ⟨0, 1, 0, service, []⟩ < 2 ^ 16 := fits_of_decodable hd
  have hwide : UcorfHead.byteSize ⟨0, 1, 0, service, []⟩ = 14 + service.length + 0 := rfl
  omega

/-- A service name of 65536 bytes, of whose length the low sixteen bits are zero. -/
theorem not_decodable_wide : ¬ ∀ h : UcorfHead, Decodable h := by
  intro hall
  have hlen : (List.replicate (2 ^ 16) (97 : UInt8)).length = 2 ^ 16 := List.length_replicate
  exact not_decodable_of_long hlen (hall ⟨0, 1, 0, List.replicate (2 ^ 16) 97, []⟩)

theorem serialize_of_parse {h₀ : UcorfHead} {buf : Bytes} (hp : (h₀.parse buf).1 ≠ 0) :
    (h₀.parse buf).2.serialize (h₀.parse buf).1 = some (buf.take (h₀.parse buf).1) := by
  rw [← UcorfHead.bytes_of_parse hp, (UcorfHead.parse_sound hp).1, UcorfHead.serialize_byteSize]

/-- A buffer that begins with the bytes of a parsed header holds that header, if it parses at
all. -/
theorem parse_of_take_eq {h₀ : UcorfHead} {buf : Bytes} (hp : (h₀.parse buf).1 ≠ 0) (h₁ : UcorfHead)
    {buf' : Bytes} (htake : buf'.take (h₀.parse buf).1 = buf.take (h₀.parse buf).1) :
    h₁.parse buf' = if buf'.length % 2 ^ 16 < (h₀.parse buf).1 then (0, h₁) else h₀.parse buf := by
  obtain ⟨hsize, hfit⟩ := UcorfHead.parse_sound hp
  have hlt : (h₀.parse buf).2.byteSize < 2 ^ 16 :=
    Nat.lt_of_le_of_lt hfit (Nat.mod_lt _ (by decide))
  have hlens : (h₀.parse buf).2.byteSize =
    14 + (h₀.parse buf).2.service.length + (h₀.parse buf).2.method.length := rfl
  have hbytes : buf' ++ [] = (h₀.parse buf).2.bytes ++ buf'.drop (h₀.parse buf).1 := by
    rw [UcorfHead.bytes_of_parse hp, ← htake, List.take_append_drop, List.append_nil]
  rw [UcorfHead.parse_bytes h₁ hbytes (by omega) (by omega), ← hsize]

/-- What decoding leaves, for every buffer and every header object it is called on. -/
theorem parse_exact (h₀ : UcorfHead) (buf : Bytes) :
    ((h₀.parse buf).1 = 0 → (h₀.parse buf).2 = h₀) ∧
    ((h₀.parse buf).1 > 0 →
      (h₀.parse buf).1 ≤ buf.length ∧
      (h₀.parse buf).2.byteSize = (h₀.parse buf).1 ∧
      (h₀.parse buf).2.serialize (h₀.parse buf).1 = some (buf.take (h₀.parse buf).1) ∧
      (∀ h₁ : UcorfHead, h₁.parse (buf.take (h₀.parse buf).1) = h₀.parse buf) ∧
      ∀ (h₁ : UcorfHead) (buf' : Bytes), buf'.take (h₀.parse buf).1 = buf.take (h₀.parse buf).1 →
        (h₁.parse buf').1 > 0 → h₁.parse buf' = h₀.parse buf) := by
  refine ⟨UcorfHead.parse_zero, fun hpos => ?_⟩
  have hp : (h₀.parse buf).1 ≠ 0 := Nat.ne_of_gt hpos
  obtain ⟨hsize, hfit⟩ := UcorfHead.parse_sound hp
  have hle : (h₀.parse buf).1 ≤ buf.length % 2 ^ 16 := hsize ▸ hfit
  have hmod : buf.length % 2 ^ 16 ≤ buf.length := Nat.mod_le _ _
  have hlt : buf.length % 2 ^ 16 < 2 ^ 16 := Nat.mod_lt _ (by decide)
  refine ⟨by omega, hsize.symm, serialize_of_parse hp, fun h₁ => ?_, fun h₁ buf' htake hpos' => ?_⟩
  · have htake : (buf.take (h₀.parse buf).1).take (h₀.parse buf).1 = buf.take (h₀.parse buf).1 := by
      rw [List.take_take, Nat.min_self]
    have hlen : (buf.take (h₀.parse buf).1).length = (h₀.parse buf).1 := by
      rw [List.length_take]
      omega
    rw [parse_of_take_eq hp h₁ htake, hlen, if_neg]
    rw [Nat.mod_eq_of_lt (by omega)]
    exact Nat.lt_irrefl _
  · have hparse := parse_of_take_eq hp h₁ htake
    split at hparse
    · rw [hparse] at hpos'
      exact absurd hpos' (Nat.lt_irrefl 0)
    · exact hparse

end Ucorf.HeaderCodec
