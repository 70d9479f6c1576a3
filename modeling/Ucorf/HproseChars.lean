import Mathlib.Data.List.DropRight
import Ucorf.HproseText

/-!
# The characters of a text

`utf8_char_count` goes one byte too far behind the first byte of a wide character, and so
it comes to the next one at its second byte. From there it counts nothing of an ASCII
character, one of two or three bytes once and one of four bytes twice. The number is
right where these errors cancel out.
-/
namespace Ucorf.HproseChars

open Ucorf.Message
open Ucorf.Decimal
open Ucorf.HproseProtocol
open Ucorf.HproseTransparency
open Ucorf.HproseText

/-- What `utf8_char_count` returns, an `int`. -/
def charCount (str : Bytes) : Int := narrow (utf8CharCount str)

/-- Behind an odd number of three-byte characters in a row if nothing or an ASCII character
is in front of these, and behind an even number of them if another character is. -/
def shifted (before : List Char) : Bool :=
  decide ((before.rtakeWhile fun c => c.utf8Size = 3).length % 2 = 1) ^^
    ((before.rdropWhile fun c => c.utf8Size = 3).getLast?.any fun c => c.utf8Size ≠ 1)

/-- The characters of the width that the loop comes to at the second byte. -/
def shiftedChars (width : Nat) (text : List Char) : Nat :=
  (List.range text.length).countP fun i =>
    shifted (text.take i) && text[i]?.any fun c => c.utf8Size = width

section Loop

/-- How many bytes behind the end the loop would go on. -/
def overrun : Nat → Bytes → Nat
  | skip, [] => skip
  | 0, leader :: str => overrun (followBytes leader) str
  | skip + 1, _ :: str => overrun skip str

/-- What the first text leaves to skip is skipped in the second one. -/
theorem countChars_append (skip : Nat) (s t : Bytes) :
    countChars skip (s ++ t) = countChars skip s + countChars (overrun skip s) t := by
  fun_induction overrun skip s with
  | case1 skip => simp [countChars]
  | case2 leader str ih =>
    rw [List.cons_append, countChars, countChars, ih]
    omega
  | case3 skip b str ih => rw [List.cons_append, countChars, countChars, ih]

theorem overrun_append (skip : Nat) (s t : Bytes) :
    overrun skip (s ++ t) = overrun (overrun skip s) t := by
  fun_induction overrun skip s with
  | case1 skip => rfl
  | case2 leader str ih => rw [List.cons_append, overrun, ih]
  | case3 skip b str ih => rw [List.cons_append, overrun, ih]

end Loop

section Characters

/-- The bytes of a character of a width, by their leading ones. -/
inductive Coded : Bytes → Nat → Prop where
  | one {a : UInt8} : followBytes a = 0 → Coded [a] 1
  | two {a b : UInt8} : followBytes a = 2 → followBytes b = 1 → Coded [a, b] 2
  | three {a b c : UInt8} : followBytes a = 3 → followBytes b = 1 → followBytes c = 1 →
      Coded [a, b, c] 3
  | four {a b c d : UInt8} : followBytes a = 4 → followBytes b = 1 → followBytes c = 1 →
      followBytes d = 1 → Coded [a, b, c, d] 4

/-- A byte inside of a character is taken for the first of two. -/
theorem follow_continuation : ∀ n < 64, followBytes (UInt8.ofNat (n + 128)) = 1 := by decide

/-- The first byte of two is taken for that of three. -/
theorem follow_two : ∀ n < 32, followBytes (UInt8.ofNat (n + 192)) = 2 := by decide

theorem follow_three : ∀ n < 16, followBytes (UInt8.ofNat (n + 224)) = 3 := by decide

/-- The first byte of four is taken for that of five. -/
theorem follow_four : ∀ n < 8, followBytes (UInt8.ofNat (n + 240)) = 4 := by decide

/-- The width of a character by its number. -/
theorem utf8Size_eq (c : Char) : c.utf8Size =
    if c.val.toNat ≤ 127 then 1 else if c.val.toNat ≤ 2047 then 2
    else if c.val.toNat ≤ 65535 then 3 else 4 := by
  simp only [Char.utf8Size, UInt32.le_iff_toNat_le]
  rfl

/-- The bytes of a character have its width and its kind of first byte. -/
theorem encodeChar_coded (c : Char) : Coded (String.utf8EncodeChar c) c.utf8Size := by
  have hcont (n : Nat) := follow_continuation (n % 64) (Nat.mod_lt _ (by decide))
  rw [String.utf8EncodeChar, utf8Size_eq]
  by_cases h₁ : c.val.toNat ≤ 127
  · rw [if_pos h₁, if_pos h₁]
    have hlt : (UInt8.ofNat c.val.toNat).toNat < 128 := by
      rw [UInt8.toNat_ofNat']
      omega
    exact .one (followBytes_ascii hlt)
  · rw [if_neg h₁, if_neg h₁]
    by_cases h₂ : c.val.toNat ≤ 2047
    · rw [if_pos h₂, if_pos h₂]
      exact .two (follow_two _ (Nat.mod_lt _ (by decide))) (hcont _)
    · rw [if_neg h₂, if_neg h₂]
      by_cases h₃ : c.val.toNat ≤ 65535
      · rw [if_pos h₃, if_pos h₃]
        exact .three (follow_three _ (Nat.mod_lt _ (by decide))) (hcont _) (hcont _)
      · rw [if_neg h₃, if_neg h₃]
        exact .four (follow_four _ (Nat.mod_lt _ (by decide))) (hcont _) (hcont _) (hcont _)

/-- Whether the loop comes to the second byte of what is behind a character. -/
def next (s : Bool) (width : Nat) : Bool := if width = 3 then !s else decide (width ≠ 1)

/-- A character goes beyond its end by one byte at most. -/
theorem overrun_char {bytes : Bytes} {width : Nat} (h : Coded bytes width) (s : Bool) :
    overrun s.toNat bytes = (next s width).toNat := by
  cases h with
  | one ha => cases s <;> simp [overrun, next, ha]
  | two ha hb => cases s <;> simp [overrun, next, ha, hb]
  | three ha hb hc => cases s <;> simp [overrun, next, ha, hb]
  | four ha hb hc hd => cases s <;> simp [overrun, next, ha, hb, hd]

/-- From the first byte each character is counted once, and from the second one an ASCII
character is lost and one of four bytes counted twice. -/
theorem countChars_char {bytes : Bytes} {width : Nat} (h : Coded bytes width) (s : Bool) :
    countChars s.toNat bytes + (s && decide (width = 1)).toNat =
      1 + (s && decide (width = 4)).toNat := by
  cases h with
  | one ha => cases s <;> simp [countChars]
  | two ha hb => cases s <;> simp [countChars, ha]
  | three ha hb hc => cases s <;> simp [countChars, ha, hb]
  | four ha hb hc hd => cases s <;> simp [countChars, ha, hb]

end Characters

section Texts

theorem utf8_concat (text : List Char) (c : Char) :
    utf8 (text ++ [c]) = utf8 text ++ String.utf8EncodeChar c := by
  simp [utf8]

theorem shifted_concat (text : List Char) (c : Char) :
    shifted (text ++ [c]) = next (shifted text) c.utf8Size := by
  by_cases hc : c.utf8Size = 3
  · have hpos : decide (c.utf8Size = 3) = true := decide_eq_true hc
    rw [shifted, List.rtakeWhile_concat_pos _ text c hpos, List.rdropWhile_concat_pos _ text c hpos,
      List.length_append, List.length_singleton, next, if_pos hc, shifted, ← Bool.not_xor]
    congr 1
    simp only [← decide_not, decide_eq_decide]
    omega
  · have hneg : ¬ decide (c.utf8Size = 3) = true := by rwa [decide_eq_true_eq]
    rw [shifted, List.rtakeWhile_concat_neg _ text c hneg, List.rdropWhile_concat_neg _ text c hneg,
      next, if_neg hc]
    simp

/-- At the end of a text the loop is at most one byte too far. -/
theorem overrun_utf8 (text : List Char) : overrun 0 (utf8 text) = (shifted text).toNat := by
  induction text using List.reverseRecOn with
  | nil => rfl
  | append_singleton text c ih =>
    rw [utf8_concat, overrun_append, ih, overrun_char (encodeChar_coded c), shifted_concat]

theorem shiftedChars_concat (width : Nat) (text : List Char) (c : Char) :
    shiftedChars width (text ++ [c]) =
      shiftedChars width text + (shifted text && decide (c.utf8Size = width)).toNat := by
  have hfront : ∀ i ∈ List.range text.length,
      (shifted ((text ++ [c]).take i) && (text ++ [c])[i]?.any fun d => d.utf8Size = width) =
        (shifted (text.take i) && text[i]?.any fun d => d.utf8Size = width) := by
    intro i hi
    have hlt := List.mem_range.mp hi
    rw [List.take_append_of_le_length (Nat.le_of_lt hlt), List.getElem?_append_left hlt]
  rw [shiftedChars, List.length_append, List.length_singleton, List.range_succ,
    List.countP_append, List.countP_congr fun i hi => by rw [hfront i hi], ← shiftedChars,
    List.countP_singleton, List.take_left, List.getElem?_concat_length, Option.any_some]
  cases shifted text && decide (c.utf8Size = width) with
  | true => rfl
  | false => rfl

/-- The count gains a character for some and loses one for others. -/
theorem utf8CharCount_add (text : List Char) :
    utf8CharCount (utf8 text) + shiftedChars 1 text = text.length + shiftedChars 4 text := by
  induction text using List.reverseRecOn with
  | nil => rfl
  | append_singleton text c ih =>
    have hchar := countChars_char (encodeChar_coded c) (shifted text)
    rw [utf8CharCount] at ih ⊢
    rw [utf8_concat, countChars_append, overrun_utf8, shiftedChars_concat, shiftedChars_concat,
      List.length_append, List.length_singleton]
    omega

theorem shiftedChars_le (width : Nat) (text : List Char) :
    shiftedChars width text ≤ text.length := by
  have hle := List.countP_le_length (p := fun i =>
    shifted (text.take i) && text[i]?.any fun c => c.utf8Size = width) (l := List.range text.length)
  rwa [List.length_range] at hle

end Texts

/-- The number is that of the characters exactly when it is an `int` and as many ASCII
characters are lost as characters of four bytes are counted twice. -/
theorem charCount_iff (text : List Char) : charCount (utf8 text) = text.length ↔
    text.length < 2 ^ 31 ∧ shiftedChars 1 text = shiftedChars 4 text := by
  have hadd := utf8CharCount_add text
  have hle := shiftedChars_le 4 text
  constructor
  · intro hcount
    have hlt : charCount (utf8 text) < 2 ^ 31 := by
      have hbmod := Int.bmod_lt (x := utf8CharCount (utf8 text)) (m := 2 ^ 32) (by decide)
      simpa [charCount, narrow] using hbmod
    have hlen : text.length < 2 ^ 31 := by omega
    have hemod : charCount (utf8 text) % (2 ^ 32 : Nat) =
        utf8CharCount (utf8 text) % (2 ^ 32 : Nat) := by
      rw [charCount, narrow, Int.bmod_emod]
    exact ⟨hlen, by omega⟩
  · rintro ⟨hlen, heq⟩
    have hcount : utf8CharCount (utf8 text) = text.length := by omega
    rw [charCount, hcount]
    exact narrow_of_int32 (by omega) (by omega)

/-- The `a` is lost behind the character of two bytes, and the last character, of four
bytes, is counted twice behind another one. -/
example : charCount (utf8 [Char.ofNat 233, 'a', Char.ofNat 233, Char.ofNat 128512]) = 4 := by decide

/-- Of two characters one is counted. -/
theorem second_char_lost : charCount (utf8 [Char.ofNat 233, 'a']) = 1 ∧
    ¬ ∀ text : List Char, charCount (utf8 text) = text.length := by
  have hone : charCount (utf8 [Char.ofNat 233, 'a']) = 1 := by decide
  refine ⟨hone, fun hall => ?_⟩
  have htwo := hall [Char.ofNat 233, 'a']
  rw [hone] at htwo
  cases htwo

end Ucorf.HproseChars
