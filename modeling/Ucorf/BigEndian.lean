import Mathlib.Algebra.Order.Ring.Nat
import Mathlib.Tactic.Ring

/-!
# Big-endian words

Fixed-width network byte order over natural numbers. The encoder keeps the low
`k` bytes of its argument, as a narrowing store does; the decoder reads a byte
list of any length.
-/
namespace Ucorf.BigEndian

/-- The low `k` bytes of `n`, most significant first. -/
def toBE : Nat → Nat → List UInt8
  | 0, _ => []
  | k + 1, n => UInt8.ofNat (n / 256 ^ k) :: toBE k n

def ofBE : List UInt8 → Nat
  | [] => 0
  | b :: bs => b.toNat * 256 ^ bs.length + ofBE bs

@[simp] theorem toBE_length (k n : Nat) : (toBE k n).length = k := by
  induction k with
  | zero => rfl
  | succ k ih => simp [toBE, ih]

/-- Decoding an encoded number gives it back up to the width of the store. -/
@[simp] theorem ofBE_toBE (k n : Nat) : ofBE (toBE k n) = n % 256 ^ k := by
  induction k with
  | zero => simp [toBE, ofBE, Nat.mod_one]
  | succ k ih =>
    simp only [toBE, ofBE, toBE_length, ih, UInt8.toNat_ofNat']
    have h := Nat.mod_mul (x := n) (a := 256 ^ k) (b := 256)
    rw [← pow_succ] at h
    rw [h, Nat.mul_comm, Nat.add_comm]

theorem ofBE_append (x y : List UInt8) : ofBE (x ++ y) = ofBE x * 256 ^ y.length + ofBE y := by
  induction x with
  | nil => simp [ofBE]
  | cons b x ih =>
    rw [List.cons_append, ofBE, ofBE, ih, List.length_append, pow_add]
    ring

theorem ofBE_zeros (n : Nat) : ofBE (List.replicate n 0) = 0 := by
  induction n with
  | zero => rfl
  | succ n ih =>
    rw [List.replicate_succ, ofBE, ih]
    simp

theorem ofBE_lt (s : List UInt8) : ofBE s < 256 ^ s.length := by
  induction s with
  | nil => simp [ofBE]
  | cons b bs ih =>
    have hb : b.toNat + 1 ≤ 256 := b.toNat_lt
    have hmul : (b.toNat + 1) * 256 ^ bs.length ≤ 256 * 256 ^ bs.length := Nat.mul_le_mul_right _ hb
    rw [Nat.succ_mul] at hmul
    rw [ofBE, List.length_cons, Nat.pow_succ, Nat.mul_comm _ 256]
    omega

/-- The encoder reads nothing above its own width. -/
theorem toBE_mul_add (k b r : Nat) : toBE k (b * 256 ^ k + r) = toBE k r := by
  induction k generalizing b with
  | zero => rfl
  | succ k ih =>
    have hsum : b * 256 ^ (k + 1) + r = r + 256 ^ k * (b * 256) := by ring
    have hdiv : (b * 256 ^ (k + 1) + r) / 256 ^ k = r / 256 ^ k + b * 256 := by
      rw [hsum, Nat.add_mul_div_left _ _ (Nat.pow_pos (by decide))]
    have hhead : UInt8.ofNat (r / 256 ^ k + b * 256) = UInt8.ofNat (r / 256 ^ k) := by
      apply UInt8.toNat_inj.mp
      simp only [UInt8.toNat_ofNat']
      omega
    have htail : b * 256 ^ (k + 1) + r = b * 256 * 256 ^ k + r := by ring
    rw [toBE, toBE, hdiv, hhead, htail, ih]

/-- Encoding a decoded word at its own width gives its bytes back. -/
theorem toBE_ofBE (s : List UInt8) : toBE s.length (ofBE s) = s := by
  induction s with
  | nil => rfl
  | cons b bs ih =>
    have hdiv : (b.toNat * 256 ^ bs.length + ofBE bs) / 256 ^ bs.length = b.toNat := by
      rw [Nat.add_comm, Nat.add_mul_div_right _ _ (Nat.pow_pos (by decide)),
        Nat.div_eq_of_lt (ofBE_lt bs), Nat.zero_add]
    rw [List.length_cons, toBE, ofBE, hdiv, UInt8.ofNat_toNat, toBE_mul_add, ih]

end Ucorf.BigEndian
