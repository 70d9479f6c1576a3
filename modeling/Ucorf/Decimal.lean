import Mathlib.Algebra.Group.Int.Defs
import Mathlib.Algebra.Group.Nat.Defs
import Mathlib.Tactic.Common

/-!
# Decimal numbers as bytes

`std::to_string`, and `atoi` and `atoll` as glibc has them: `strtoll` skips white space,
takes a sign and the digits after it and saturates at the ends of 64 bits, `atoll` is
`strtoll`, and `atoi` keeps the low 32 bits of it.
-/
namespace Ucorf.Decimal

/-- `std::to_string` of an unsigned integer. -/
def ofNat (n : Nat) : List UInt8 := (Nat.toDigits 10 n).map fun c => UInt8.ofNat c.toNat

/-- `std::to_string` of a signed integer. -/
def ofInt : Int → List UInt8
  | .ofNat n => ofNat n
  | .negSucc n => 45 :: ofNat (n + 1)

def isDigit (c : UInt8) : Bool := decide (48 ≤ c.toNat ∧ c.toNat ≤ 57)

def isSpace (c : UInt8) : Bool := decide (c.toNat = 32 ∨ 9 ≤ c.toNat ∧ c.toNat ≤ 13)

/-- The number that a string of digits denotes. -/
def value (digits : List UInt8) : Nat := digits.foldl (fun n c => 10 * n + (c.toNat - 48)) 0

/-- The number at the front of a string, zero where no digit is. -/
def unsigned (s : List UInt8) : Nat := value (s.takeWhile isDigit)

def signed : List UInt8 → Int
  | [] => 0
  | c :: s => if c = 45 then -(unsigned s : Int) else if c = 43
      then unsigned s else unsigned (c :: s)

def strtoll (s : List UInt8) : Int :=
  max (-2 ^ 63) (min (2 ^ 63 - 1) (signed (s.dropWhile isSpace)))

def atoll (s : List UInt8) : Int := strtoll s

/-- The conversion to `int` keeps 32 bits. -/
def narrow (i : Int) : Int := i.bmod (2 ^ 32)

def atoi (s : List UInt8) : Int := narrow (strtoll s)

/-- The number that a nonempty string of digits denotes. -/
def natural (s : List UInt8) : Option Nat := if s ≠ [] ∧ s.all isDigit then some (value s) else none

/-- The number that a numeral denotes: a sign or none, and digits. -/
def denoted : List UInt8 → Option Int
  | [] => none
  | c :: s =>
    if c = 45 then (natural s).map fun n : Nat => -(n : Int)
    else if c = 43 then (natural s).map fun n : Nat => (n : Int)
    else (natural (c :: s)).map fun n : Nat => (n : Int)

example : atoi [32, 45, 52, 50, 59] = -42 := by decide

/-- A number of 32 bits stays as it is. -/
theorem narrow_of_int32 {i : Int} (hlo : -2 ^ 31 ≤ i) (hhi : i < 2 ^ 31) : narrow i = i :=
  Int.bmod_eq_of_le (by omega) (by omega)

section Digits

variable (n : Nat)

theorem ofNat_ne_nil : ofNat n ≠ [] := by
  simp [ofNat]

theorem digit_toNat {c : Char} (hc : c.isDigit = true) :
    (UInt8.ofNat c.toNat).toNat = c.toNat ∧ 48 ≤ c.toNat ∧ c.toNat ≤ 57 := by
  have hlo : 48 ≤ c.toNat := (Char.isDigit_iff_toNat.mp hc).1
  have hhi : c.toNat ≤ 57 := (Char.isDigit_iff_toNat.mp hc).2
  refine ⟨?_, hlo, hhi⟩
  rw [UInt8.toNat_ofNat']
  omega

/-- A number is written in digits only. -/
theorem isDigit_of_mem_ofNat {c : UInt8} (hc : c ∈ ofNat n) : isDigit c = true := by
  obtain ⟨d, hd, rfl⟩ := List.mem_map.mp hc
  have hdigit : d.isDigit = true := Nat.isDigit_of_mem_toDigits (by omega) (by omega) hd
  obtain ⟨htoNat, hlo, hhi⟩ := digit_toNat hdigit
  simp only [isDigit, htoNat, decide_eq_true_eq]
  exact ⟨hlo, hhi⟩

/-- The fold over the written digits is the one that `Nat.ofDigitChars` makes. -/
theorem value_map (ds : List Char) (hds : ∀ d ∈ ds, d.isDigit = true) (m : Nat) :
    (ds.map fun d => UInt8.ofNat d.toNat).foldl (fun n c => 10 * n + (c.toNat - 48)) m =
      Nat.ofDigitChars 10 ds m := by
  induction ds generalizing m with
  | nil => simp
  | cons d ds ih =>
    have hd : (UInt8.ofNat d.toNat).toNat = d.toNat := (digit_toNat (hds d (by simp))).1
    rw [List.map_cons, List.foldl_cons, hd, Nat.ofDigitChars_cons,
      ih fun x hx => hds x (by simp [hx])]
    rfl

/-- What was written has the value of the number. -/
theorem value_ofNat : value (ofNat n) = n := by
  have h := value_map (Nat.toDigits 10 n)
    (fun d hd => Nat.isDigit_of_mem_toDigits (by omega) (by omega) hd) 0
  unfold value ofNat
  rw [h]
  exact Nat.ofDigitChars_toDigits (by omega) (by omega)

theorem not_mem_ofNat {c : UInt8} (hc : isDigit c = false) : c ∉ ofNat n := by
  intro h
  have hdigit := isDigit_of_mem_ofNat n h
  rw [hc] at hdigit
  cases hdigit

/-- Only digits and the sign stand in a written number. -/
theorem not_mem_ofInt {c : UInt8} (hc : isDigit c = false) (hneg : c ≠ 45) (i : Int) :
    c ∉ ofInt i := by
  cases i with
  | ofNat n => exact not_mem_ofNat n hc
  | negSucc n => simp [ofInt, hneg, not_mem_ofNat (n + 1) hc]

/-- What follows the digits ends the number. -/
theorem unsigned_append {c : UInt8} (hc : isDigit c = false) {ds : List UInt8}
    (hds : ∀ d ∈ ds, isDigit d = true)
    (rest : List UInt8) : unsigned (ds ++ c :: rest) = value ds := by
  have htake : (ds ++ c :: rest).takeWhile isDigit = ds := by
    rw [List.takeWhile_append_of_pos hds]
    simp [hc]
  rw [unsigned, htake]

/-- The digits are read up to the first other byte. -/
theorem unsigned_ofNat {c : UInt8} (hc : isDigit c = false) (rest : List UInt8) :
    unsigned (ofNat n ++ c :: rest) = n := by
  rw [unsigned_append hc (fun d hd => isDigit_of_mem_ofNat n hd), value_ofNat]

end Digits

section Parsing

variable {c : UInt8} (hc : isDigit c = false) (rest : List UInt8)

/-- A digit is neither a sign nor a space. -/
theorem digit_cases {d : UInt8} (hd : isDigit d = true) : d ≠ 45 ∧ d ≠ 43 ∧ isSpace d = false := by
  simp only [isDigit, decide_eq_true_eq] at hd
  refine ⟨?_, ?_, ?_⟩
  · intro h
    subst h
    exact absurd hd (by decide)
  · intro h
    subst h
    exact absurd hd (by decide)
  · simp only [isSpace, decide_eq_false_iff_not]
    omega

include hc

theorem signed_ofNat (n : Nat) : signed ((ofNat n ++ c :: rest).dropWhile isSpace) = n := by
  have hunsigned := unsigned_ofNat n hc rest
  cases hn : ofNat n with
  | nil => exact absurd hn (ofNat_ne_nil n)
  | cons d ds =>
    obtain ⟨hneg, hpos, hspace⟩ := digit_cases (isDigit_of_mem_ofNat n (c := d) (by simp [hn]))
    rw [hn] at hunsigned
    simp only [List.cons_append, List.dropWhile_cons, hspace, Bool.false_eq_true, if_false,
      signed, hneg, hpos]
    exact congrArg Int.ofNat hunsigned

/-- The sign is read back too. -/
theorem signed_ofInt (i : Int) : signed ((ofInt i ++ c :: rest).dropWhile isSpace) = i := by
  cases i with
  | ofNat n => exact signed_ofNat hc rest n
  | negSucc n =>
    have hspace : isSpace 45 = false := by decide
    simp only [ofInt, List.cons_append, List.dropWhile_cons, hspace, Bool.false_eq_true, if_false,
      signed, if_true, unsigned_ofNat (n + 1) hc rest]
    omega

/-- A number of 64 bits is read back. -/
theorem strtoll_ofInt {i : Int} (hlo : -2 ^ 63 ≤ i) (hhi : i < 2 ^ 63) :
    strtoll (ofInt i ++ c :: rest) = i := by
  rw [strtoll, signed_ofInt hc rest]
  omega

theorem atoll_ofInt {i : Int} (hlo : -2 ^ 63 ≤ i) (hhi : i < 2 ^ 63) :
    atoll (ofInt i ++ c :: rest) = i :=
  strtoll_ofInt hc rest hlo hhi

/-- `atoi` reads 64 bits and keeps the lower half. -/
theorem atoi_ofInt {i : Int} (hlo : -2 ^ 63 ≤ i) (hhi : i < 2 ^ 63) :
    atoi (ofInt i ++ c :: rest) = narrow i := by
  rw [atoi, strtoll_ofInt hc rest hlo hhi]

theorem atoi_ofInt32 {i : Int} (hlo : -2 ^ 31 ≤ i) (hhi : i < 2 ^ 31) :
    atoi (ofInt i ++ c :: rest) = i := by
  rw [atoi_ofInt hc rest (by omega) (by omega), narrow_of_int32 hlo hhi]

/-- So a length below 2^31 is read back. -/
theorem atoi_ofNat {n : Nat} (hn : n < 2 ^ 31) : atoi (ofNat n ++ c :: rest) = n :=
  atoi_ofInt32 hc rest (i := (n : Int)) (by omega) (by omega)

end Parsing

section Numerals

variable {c d : UInt8} {s : List UInt8} {n : Nat} {i : Int}

/-- A natural number is a nonempty row of digits, and its value. -/
theorem natural_eq_some : natural s = some n ↔ (s ≠ [] ∧ ∀ d ∈ s, isDigit d = true) ∧
    value s = n := by
  have hall : s.all isDigit = true ↔ ∀ d ∈ s, isDigit d = true := List.all_eq_true
  rw [natural, ← hall]
  by_cases hs : s ≠ [] ∧ s.all isDigit = true
  · rw [if_pos hs, Option.some.injEq]
    exact (and_iff_right hs).symm
  · rw [if_neg hs]
    constructor
    · intro h
      cases h
    · intro h
      exact absurd h.1 hs

/-- A number has a minus, a plus or no sign in front of its digits. -/
theorem denoted_cases (h : denoted s = some i) :
    (∃ ds n, s = 45 :: ds ∧ natural ds = some n ∧ i = -(n : Int)) ∨
    (∃ ds n, s = 43 :: ds ∧ natural ds = some n ∧ i = n) ∨
    ∃ n, natural s = some n ∧ i = n := by
  cases s with
  | nil => cases h
  | cons c s =>
    rw [denoted] at h
    split at h
    · rename_i hc
      obtain ⟨n, hn, rfl⟩ := Option.map_eq_some_iff.mp h
      exact .inl ⟨s, n, by rw [hc], hn, rfl⟩
    · split at h
      · rename_i hc
        obtain ⟨n, hn, rfl⟩ := Option.map_eq_some_iff.mp h
        exact .inr (.inl ⟨s, n, by rw [hc], hn, rfl⟩)
      · obtain ⟨n, hn, rfl⟩ := Option.map_eq_some_iff.mp h
        exact .inr (.inr ⟨n, hn, rfl⟩)

theorem not_mem_natural (h : natural s = some n) (hc : isDigit c = false) : c ∉ s := by
  obtain ⟨⟨-, hdigits⟩, -⟩ := natural_eq_some.mp h
  intro hmem
  have hdigit := hdigits c hmem
  rw [hc] at hdigit
  cases hdigit

/-- A byte that is neither a digit nor a sign ends a number. -/
theorem not_mem_denoted (h : denoted s = some i) (hc : isDigit c = false) (hneg : c ≠ 45)
    (hpos : c ≠ 43) :
    c ∉ s := by
  obtain ⟨ds, n, rfl, hn, -⟩ | ⟨ds, n, rfl, hn, -⟩ | ⟨n, hn, -⟩ := denoted_cases h
  · simp [hneg, not_mem_natural hn hc]
  · simp [hpos, not_mem_natural hn hc]
  · exact not_mem_natural hn hc

theorem unsigned_natural (h : natural s = some n) (hc : isDigit c = false) (rest : List UInt8) :
    unsigned (s ++ c :: rest) = n := by
  obtain ⟨⟨-, hdigits⟩, hvalue⟩ := natural_eq_some.mp h
  rw [unsigned_append hc hdigits, hvalue]

/-- A numeral at the front of a string is the number that is found there. -/
theorem signed_denoted (h : denoted s = some i) (hc : isDigit c = false) (rest : List UInt8) :
    signed ((s ++ c :: rest).dropWhile isSpace) = i := by
  have hminus : isSpace 45 = false := by decide
  have hplus : isSpace 43 = false := by decide
  obtain ⟨ds, n, rfl, hn, rfl⟩ | ⟨ds, n, rfl, hn, rfl⟩ | ⟨n, hn, rfl⟩ := denoted_cases h
  · simp only [List.cons_append, List.dropWhile_cons, hminus, Bool.false_eq_true, if_false, signed,
      if_true, unsigned_natural hn hc rest]
  · have hne : (43 : UInt8) ≠ 45 := by decide
    simp only [List.cons_append, List.dropWhile_cons, hplus, Bool.false_eq_true, if_false, signed,
      if_true, if_neg hne, unsigned_natural hn hc rest]
  · have hunsigned := unsigned_natural hn hc rest
    obtain ⟨⟨hne, hdigits⟩, -⟩ := natural_eq_some.mp hn
    cases s with
    | nil => exact absurd rfl hne
    | cons d ds =>
      obtain ⟨hneg, hpos, hspace⟩ := digit_cases (hdigits d List.mem_cons_self)
      rw [List.cons_append] at hunsigned ⊢
      simp only [List.dropWhile_cons, hspace, Bool.false_eq_true, if_false, signed, hneg,
        hpos, hunsigned]

theorem natural_ofNat (n : Nat) : natural (ofNat n) = some n :=
  natural_eq_some.mpr ⟨⟨ofNat_ne_nil n, fun _ hd => isDigit_of_mem_ofNat n hd⟩, value_ofNat n⟩

/-- What `std::to_string` writes is a numeral. -/
theorem denoted_ofInt (i : Int) : denoted (ofInt i) = some i := by
  cases i with
  | ofNat n =>
    have hn := natural_ofNat n
    rw [ofInt]
    cases hs : ofNat n with
    | nil => exact absurd hs (ofNat_ne_nil n)
    | cons d ds =>
      obtain ⟨hneg, hpos, -⟩ := digit_cases (isDigit_of_mem_ofNat n (c := d) (by simp [hs]))
      rw [hs] at hn
      rw [denoted, if_neg hneg, if_neg hpos, hn]
      rfl
  | negSucc n =>
    rw [ofInt, denoted, if_pos rfl, natural_ofNat]
    rfl

/-- Beyond 64 bits a number is read as the nearest one that has room. -/
theorem strtoll_denoted (h : denoted s = some i) (hc : isDigit c = false) (rest : List UInt8) :
    strtoll (s ++ c :: rest) = max (-2 ^ 63) (min (2 ^ 63 - 1) i) := by
  rw [strtoll, signed_denoted h hc rest]

end Numerals

section Widths

variable {s t : List UInt8}

/-- A fold that begins with `n` puts it in front. -/
theorem value_foldl (s : List UInt8) (n : Nat) :
    s.foldl (fun n c => 10 * n + (c.toNat - 48)) n = n * 10 ^ s.length + value s := by
  induction s generalizing n with
  | nil => simp [value]
  | cons c s ih =>
    have hcons : value (c :: s) = (10 * 0 + (c.toNat - 48)) * 10 ^ s.length + value s := ih _
    rw [Nat.mul_zero, Nat.zero_add] at hcons
    rw [List.foldl_cons, ih, hcons, List.length_cons, Nat.pow_succ, Nat.add_mul, Nat.mul_assoc,
      ← Nat.mul_assoc n]
    omega

/-- The digits in front count for as many places as follow them. -/
theorem value_append (s t : List UInt8) : value (s ++ t) = value s * 10 ^ t.length + value t := by
  rw [value, List.foldl_append, ← value, value_foldl]

theorem value_cons (c : UInt8) (s : List UInt8) :
    value (c :: s) = (c.toNat - 48) * 10 ^ s.length + value s := by
  have hsingle : value [c] = c.toNat - 48 := by simp [value]
  rw [← List.singleton_append, value_append, hsingle]

/-- As many digits as that stay below the power of ten. -/
theorem value_lt (h : ∀ d ∈ s, isDigit d = true) : value s < 10 ^ s.length := by
  induction s with
  | nil => simp [value]
  | cons c s ih =>
    have hc : c.toNat - 48 ≤ 9 := by
      have hdigit := h c List.mem_cons_self
      rw [isDigit, decide_eq_true_eq] at hdigit
      omega
    have hrest := ih fun d hd => h d (List.mem_cons_of_mem _ hd)
    have hle : (c.toNat - 48) * 10 ^ s.length ≤ 9 * 10 ^ s.length := Nat.mul_le_mul_right _ hc
    rw [value_cons, List.length_cons, Nat.pow_succ]
    omega

/-- The digits at the front of a string, up to its end or to another byte. -/
theorem strtoll_digits (hs : s ≠ []) (h : ∀ d ∈ s, isDigit d = true)
    (ht : ∀ c ∈ t.head?, isDigit c = false) :
    strtoll (s ++ t) = min (2 ^ 63 - 1) (value s : Int) := by
  have htail : t.takeWhile isDigit = [] := by
    cases t with
    | nil => rfl
    | cons c t =>
      have hc : isDigit c = false := ht c rfl
      simp [hc]
  have hunsigned : unsigned (s ++ t) = value s := by
    rw [unsigned, List.takeWhile_append_of_pos h, htail, List.append_nil]
  have hsigned : signed ((s ++ t).dropWhile isSpace) = value s := by
    cases s with
    | nil => exact absurd rfl hs
    | cons d ds =>
      obtain ⟨hneg, hpos, hspace⟩ := digit_cases (h d List.mem_cons_self)
      rw [List.cons_append] at hunsigned ⊢
      simp only [List.dropWhile_cons, hspace, Bool.false_eq_true, if_false, signed, hneg,
        hpos, hunsigned]
  rw [strtoll, hsigned]
  omega

/-- Nine digits fit into an `int`. -/
theorem digits_bounds (h : ∀ d ∈ s, isDigit d = true) (hlen : s.length ≤ 9) : value s < 2 ^ 31 := by
  have hlt := value_lt h
  have hpow : 10 ^ s.length ≤ 10 ^ 9 := Nat.pow_le_pow_right (by decide) hlen
  omega

/-- Nine digits are read without a limit, whatever follows them. -/
theorem atoll_digits (hs : s ≠ []) (h : ∀ d ∈ s, isDigit d = true) (hlen : s.length ≤ 9)
    (ht : ∀ c ∈ t.head?, isDigit c = false) : atoll (s ++ t) = value s := by
  have hlt := digits_bounds h hlen
  rw [atoll, strtoll_digits hs h ht]
  omega

theorem atoi_digits (hs : s ≠ []) (h : ∀ d ∈ s, isDigit d = true) (hlen : s.length ≤ 9)
    (ht : ∀ c ∈ t.head?, isDigit c = false) : atoi (s ++ t) = value s := by
  have hlt := digits_bounds h hlen
  have hstrtoll : strtoll (s ++ t) = value s := atoll_digits hs h hlen ht
  rw [atoi, hstrtoll, narrow_of_int32 (by omega) (by omega)]

end Widths

end Ucorf.Decimal
