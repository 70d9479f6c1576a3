import Ucorf.HproseReads
import Ucorf.HproseTransparency

/-!
# Texts

With its flag, `Write` puts the number of characters of a text in front of it, and it
takes the leading ones of a first byte for the bytes that follow that one. `Read` drops
the flag and takes the number for one of bytes, so the two agree on ASCII only.
-/
namespace Ucorf.HproseText

open Ucorf.Message
open Ucorf.Decimal
open Ucorf.HproseProtocol
open Ucorf.HproseReads
open Ucorf.HproseRoundTrip
open Ucorf.HproseService
open Ucorf.HproseTransparency

/-- The bytes of a text. -/
def utf8 (text : List Char) : Bytes := text.flatMap String.utf8EncodeChar

/-- `Read(out, true)` behind `Write(str, true)`. -/
def TextRoundTrips (str : Bytes) : Prop :=
  RoundTrips (fun target b => readString target true b) (writeString str true) str

/-- The function that is registered under the name gets the calls of the stub. -/
def Found (method : Bytes) : Prop :=
  ∀ (σ : Type) (functions : Functions σ) (callee : Callee σ) (ts : List Ty)
    (args : Vals ts) (st : σ),
    functions[method]? = some callee →
    ∃ reader : Buffer, reader.rest = argsCode ts args ++ [tagEnd] ∧
      callMethod functions (requestBody method ts args) st = callee.call method reader st

section Characters

variable {leader : UInt8} {c : Char}

theorem followBytes_pos (h : 128 ≤ leader.toNat) : 0 < followBytes leader := by
  have hlt := leader.toNat_lt
  have hbit : leader.toNat.testBit 7 = true := by
    rw [Nat.testBit_eq_decide_div_mod_eq]
    exact decide_eq_true (by omega)
  rw [followBytes]
  cases hfind : (List.range 7).find? fun i => !leader.toNat.testBit (7 - i) with
  | none => simp
  | some i =>
    have hi := List.find?_some hfind
    rw [Option.getD_some]
    apply Nat.pos_of_ne_zero
    rintro rfl
    simp [hbit] at hi

/-- An ASCII character is one byte. -/
theorem encodeChar_ascii (h : c.toNat < 128) : String.utf8EncodeChar c = [UInt8.ofNat c.toNat] := by
  have hle : c.toNat ≤ 127 := by omega
  have hnot : ¬ 127 < c.toNat := by omega
  simp [String.utf8EncodeChar, hnot]

/-- The first byte of a wide character has its top bit set. -/
theorem lead_toNat {n top : Nat} (htop : 128 ≤ top) (hlt : n + top < 256) :
    128 ≤ (UInt8.ofNat (n + top)).toNat := by
  rw [UInt8.toNat_ofNat', Nat.mod_eq_of_lt hlt]
  omega

/-- A character beyond ASCII has a first byte with its top bit set and others after it. -/
theorem encodeChar_wide (h : 128 ≤ c.toNat) :
    ∃ leader tail, String.utf8EncodeChar c = leader :: tail ∧ 128 ≤ leader.toNat ∧ tail ≠ [] := by
  have hnot : ¬ c.val.toNat ≤ 127 := by
    change ¬ c.toNat ≤ 127
    omega
  rw [String.utf8EncodeChar]
  rw [if_neg hnot]
  split
  · exact ⟨_, _, rfl, lead_toNat (by omega) (by omega), List.cons_ne_nil _ _⟩
  · split
    · exact ⟨_, _, rfl, lead_toNat (by omega) (by omega), List.cons_ne_nil _ _⟩
    · exact ⟨_, _, rfl, lead_toNat (by omega) (by omega), List.cons_ne_nil _ _⟩

end Characters

section Counting

variable {text : List Char} {str : Bytes}

/-- No text has more characters than bytes. -/
theorem countChars_le (skip : Nat) (str : Bytes) : countChars skip str ≤ str.length := by
  fun_induction countChars skip str with
  | case1 => simp
  | case2 leader str ih =>
    rw [List.length_cons]
    omega
  | case3 skip b str ih =>
    rw [List.length_cons]
    omega

/-- What is skipped is not counted. -/
theorem countChars_skip {skip : Nat} (hskip : 0 < skip) (hne : str ≠ []) :
    countChars skip str < str.length := by
  cases str with
  | nil => exact absurd rfl hne
  | cons b str =>
    obtain ⟨skip, rfl⟩ := Nat.exists_eq_succ_of_ne_zero (Nat.ne_of_gt hskip)
    have hle := countChars_le skip str
    rw [countChars, List.length_cons]
    omega

theorem utf8CharCount_cons (leader : UInt8) (str : Bytes) :
    utf8CharCount (leader :: str) = countChars (followBytes leader) str + 1 := by
  rw [utf8CharCount, countChars]

theorem utf8CharCount_pos (hne : str ≠ []) : 0 < utf8CharCount str := by
  cases str with
  | nil => exact absurd rfl hne
  | cons leader str =>
    rw [utf8CharCount_cons]
    omega

/-- An ASCII text is one of ASCII bytes. -/
theorem utf8_ascii (h : ∀ c ∈ text, c.toNat < 128) : ∀ b ∈ utf8 text, b.toNat < 128 := by
  intro b hb
  obtain ⟨c, hc, hb⟩ := List.mem_flatMap.mp hb
  have hlt := h c hc
  rw [encodeChar_ascii hlt, List.mem_singleton] at hb
  rw [hb, UInt8.toNat_ofNat']
  omega

/-- The bytes of one wide character are enough to make the count fall short. -/
theorem utf8CharCount_wide (h : ¬ ∀ c ∈ text, c.toNat < 128) :
    utf8CharCount (utf8 text) < (utf8 text).length := by
  induction text with
  | nil => exact absurd (by simp) h
  | cons c text ih =>
    rw [utf8, List.flatMap_cons, ← utf8]
    by_cases hc : c.toNat < 128
    · have hrest : ¬ ∀ c ∈ text, c.toNat < 128 := by
        intro hall
        exact h (List.forall_mem_cons.mpr ⟨hc, hall⟩)
      have hlead : (UInt8.ofNat c.toNat).toNat < 128 := by
        rw [UInt8.toNat_ofNat']
        omega
      have hlt := ih hrest
      rw [utf8CharCount] at hlt
      rw [encodeChar_ascii hc, List.singleton_append, utf8CharCount_cons, followBytes_ascii hlead,
        List.length_cons]
      omega
    · obtain ⟨leader, tail, hbytes, hlead, htail⟩ := encodeChar_wide (Nat.le_of_not_lt hc)
      have hne : tail ++ utf8 text ≠ [] := by simp [htail]
      have hlt := countChars_skip (followBytes_pos hlead) hne
      rw [hbytes, List.cons_append, utf8CharCount_cons, List.length_cons]
      omega

end Counting

section Reading

variable {str : Bytes} {b : Buffer} {r : Bytes}

theorem stringLength_text (h : str.length < 2 ^ 31) :
    stringLength str true = utf8CharCount str := by
  have hle := countChars_le 0 str
  rw [← utf8CharCount] at hle
  simp only [stringLength, if_true]
  exact narrow_of_int32 (by omega) (by omega)

/-- With fewer characters than bytes, a read that succeeds has left bytes out. -/
theorem readString_cut (hlen : str.length < 2 ^ 31) (hcut : utf8CharCount str < str.length)
    (hrest : b.rest = stringCode str true ++ r) {target v : Bytes} {b' : Buffer}
    (hread : readString target true b = .ok (true, v, b')) : v = str.take (utf8CharCount str) := by
  have hne : str ≠ [] := by
    rintro rfl
    exact Nat.not_lt_zero _ hcut
  have hpos := utf8CharCount_pos hne
  have hquote : isDigit tagQuote = false := by decide
  rw [stringCode, if_neg (mt List.isEmpty_iff.mp hne), stringLength_text hlen] at hrest
  have hcode : b.rest = tagString ::
      (ofInt (utf8CharCount str) ++ tagQuote :: (str ++ tagQuote :: r)) := by
    rw [hrest]
    simp
  obtain ⟨huntil, hbytes⟩ := readUntil_number hquote (by decide) (by decide) hcode
  have hatoi : atoi (ofInt (utf8CharCount str) ++ [tagQuote]) = utf8CharCount str :=
    atoi_ofNat hquote [] (Nat.lt_trans hcut hlen)
  have hlong : utf8CharCount str < (str ++ tagQuote :: r).length := by
    rw [List.length_append]
    omega
  obtain ⟨hreadN, htake⟩ := readN_lt (hbytes ▸ hlong)
  rw [hbytes, List.take_append_of_le_length (Nat.le_of_lt hcut)] at hreadN htake
  have htag : tagString ≠ tagEmpty ∧ ¬ (tagString ≠ tagString ∧ tagString ≠ tagBytes) := by decide
  have hnonempty : (ofInt (utf8CharCount str) ++ [tagQuote]).isEmpty = false := by simp
  have hnotle : ¬ (utf8CharCount str : Int) ≤ 0 := by omega
  simp only [readString, readString', Buffer.get_cons hcode, if_false, htag, huntil, hnonempty,
    Bool.false_eq_true,
    hatoi, hnotle, Int.toNat_natCast, hreadN, htake, ne_eq, not_true_eq_false] at hread
  rcases hclose : Buffer.gets tagQuote _ with ⟨ok, b''⟩
  rw [hclose] at hread
  cases ok with
  | true =>
    cases hread
    rfl
  | false => cases hread

theorem take_ne {n : Nat} (h : n < str.length) : str.take n ≠ str := by
  intro heq
  have hlen := congrArg List.length heq
  rw [List.length_take] at hlen
  omega

end Reading

section Texts

/-- The one function of a service is not the one that the name on the wire leads to. -/
def ping : Callee Unit := ⟨[.bool], one_arity _, .bool, fun args st => (args.1, st)⟩

theorem anyMethod_ne {text : List Char} (h : ¬ ∀ c ∈ text, c.toNat < 128) :
    anyMethod ≠ utf8 text := by
  intro heq
  have hcut := utf8CharCount_wide h
  have hany : utf8CharCount anyMethod = anyMethod.length := by decide
  rw [← heq] at hcut
  omega

variable {text : List Char} (hlen : (utf8 text).length < 2 ^ 31)

include hlen

/-- An ASCII text is read back. -/
theorem roundTrips_ascii (h : ∀ c ∈ text, c.toNat < 128) : TextRoundTrips (utf8 text) :=
  roundTrips_of_decodes (writeString_eq (utf8 text) true) (name_decodes (utf8_ascii h) hlen true)

/-- A text with a wide character is cut. -/
theorem not_roundTrips_wide (h : ¬ ∀ c ∈ text, c.toNat < 128) : ¬ TextRoundTrips (utf8 text) := by
  intro hround
  have hread := hround.read_code (writeString_eq (utf8 text) true) []
  have hcut := utf8CharCount_wide h
  exact take_ne hcut (readString_cut hlen hcut (List.append_nil _).symm hread).symm

/-- A function with an ASCII name gets its calls. -/
theorem found_ascii (h : ∀ c ∈ text, c.toNat < 128) : Found (utf8 text) := by
  intro σ functions callee ts args st hentry
  obtain ⟨reader, hrest, hcall⟩ := callMethod_requestBody functions (utf8_ascii h) hlen ts args st
  refine ⟨reader, hrest, ?_⟩
  rw [hcall]
  simp only [call, hentry]

/-- The call of another one comes to a name that is cut, which has no entry. -/
theorem not_found_wide (h : ¬ ∀ c ∈ text, c.toNat < 128) : ¬ Found (utf8 text) := by
  intro hfound
  have hcut := utf8CharCount_wide h
  have hother : ∀ m ≠ utf8 text, (registerFunction ∅ (utf8 text) ping).2[m]? = none := by
    intro m hm
    have hne : ¬ utf8 text = m := fun heq => hm heq.symm
    simp [registerFunction, hne]
  obtain ⟨reader, hrest, hcall⟩ :=
    hfound Unit (registerFunction ∅ (utf8 text) ping).2 ping [.bool] (true, ()) ()
    (by simp [registerFunction])
  have hread : readArgs [.bool] reader =
      .ok (some (true, ()), reader.skip (argsCode [.bool] (true, ())).length) :=
    readArgs_append [.bool] (by simp [Plain]) (true, ()) ⟨trivial, trivial⟩ hrest
  have hanswer : ping.call (utf8 text) reader () =
      .ok ⟨r2Hprose .bool true, (), [⟨utf8 text, [.bool], (true, ())⟩]⟩ := by
    simp only [Callee.call, ping, hread]
  have htag : tagCall ≠ tagEnd := by decide
  have hget : Buffer.get
      ⟨tagCall :: (stringCode (utf8 text) true ++ (argsCode [.bool] (true, ()) ++ [tagEnd])), 0⟩ =
      (some tagCall, ⟨tagCall ::
        (stringCode (utf8 text) true ++ (argsCode [.bool] (true, ()) ++ [tagEnd])), 1⟩) := rfl
  rw [requestBody_eq, hanswer] at hcall
  simp only [callMethod, hget, Option.some.injEq, htag, if_false, if_true] at hcall
  cases hread : readString [] true
      ⟨tagCall ::
        (stringCode (utf8 text) true ++ (argsCode [.bool] (true, ()) ++ [tagEnd])), 1⟩ with
  | error e =>
    rw [hread] at hcall
    cases hcall
  | ok out =>
    obtain ⟨ok, m, reader'⟩ := out
    rw [hread] at hcall
    cases ok with
    | false => cases hcall
    | true =>
      have hm : m = (utf8 text).take (utf8CharCount (utf8 text)) :=
        readString_cut hlen hcut rfl hread
      have hne : m ≠ utf8 text := by
        rw [hm]
        exact take_ne hcut
      simp only [call, hother m hne, hother anyMethod (anyMethod_ne h)] at hcall
      cases hcall

end Texts

/-- A text comes back, and a method of that name is found, exactly when it is ASCII. -/
theorem text_iff (text : List Char) (hlen : (utf8 text).length < 2 ^ 31) :
    (TextRoundTrips (utf8 text) ↔ ∀ c ∈ text, c.toNat < 128) ∧
    (Found (utf8 text) ↔ ∀ c ∈ text, c.toNat < 128) := by
  refine ⟨⟨fun hround => ?_, roundTrips_ascii hlen⟩, ⟨fun hfound => ?_, found_ascii hlen⟩⟩
  · by_contra h
    exact not_roundTrips_wide hlen h hround
  · by_contra h
    exact not_found_wide hlen h hfound

theorem text_iff_sum : TextRoundTrips (utf8 ['s', 'u', 'm']) ∧ Found (utf8 ['s', 'u', 'm']) := by
  have h := text_iff ['s', 'u', 'm'] (by decide)
  have hascii : ∀ c ∈ ['s', 'u', 'm'], c.toNat < 128 := by simp
  exact ⟨h.1.mpr hascii, h.2.mpr hascii⟩

/-- Two bytes of one character are written with the length 1, and the second one stands
where the quote is looked for. -/
theorem accented_lost :
    (writeString (utf8 [Char.ofNat 233]) true Buffer.empty).s = [115, 49, 34, 195, 169, 34] ∧
    readString [] true ⟨[115, 49, 34, 195, 169, 34], 0⟩ =
      .ok (false, [], ⟨[115, 49, 34, 195, 169, 34], 0⟩) ∧
    ¬ ∀ text : List Char, (utf8 text).length < 2 ^ 31 →
      TextRoundTrips (utf8 text) ∧ Found (utf8 text) := by
  refine ⟨by decide, rfl, ?_⟩
  intro hall
  have hwide : ¬ ∀ c ∈ [Char.ofNat 233], c.toNat < 128 := by
    intro hascii
    exact absurd (hascii (Char.ofNat 233) List.mem_cons_self) (by decide)
  exact not_roundTrips_wide (by decide) hwide (hall [Char.ofNat 233] (by decide)).1

end Ucorf.HproseText
