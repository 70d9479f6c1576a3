import Mathlib.Data.List.Basic
import Mathlib.Tactic.Common

/-!
# Words and marks

A text is read one letter at a time as words, quoted texts and single marks. White space and
the directives, which go from a hash to the end of their line, stand between them. A text is
read piece by piece, with the mode in which one piece leaves off. Blocks are what stands
between braces, each with what is in front of it.
-/
namespace Ucorf.Lexing

inductive Token where
  | word (w : List Char)
  | text (t : List Char)
  | mark (c : Char)
  deriving DecidableEq, Repr

/-- What has begun and not ended yet. -/
inductive Mode where
  | between
  | word (w : List Char)
  | text (t : List Char)
  | directive
  deriving DecidableEq, Repr

def isWordChar (c : Char) : Bool := c.isAlphanum || c = '_'

/-- The letters of words are those of ASCII. -/
theorem wordChar_lt {c : Char} (h : isWordChar c = true) : c.toNat < 128 := by
  have hupper (hc : c.isUpper = true) : c.toNat ≤ 90 :=
    UInt32.le_iff_toNat_le.mp (of_decide_eq_true hc).2
  have hlower (hc : c.isLower = true) : c.toNat ≤ 122 :=
    UInt32.le_iff_toNat_le.mp (of_decide_eq_true (Bool.and_eq_true_iff.mp hc).2)
  have hdigit (hc : c.isDigit = true) : c.toNat ≤ 57 := (Char.isDigit_iff_toNat.mp hc).2
  rw [isWordChar, Bool.or_eq_true, decide_eq_true_eq] at h
  rcases h with halnum | rfl
  · have hcases : (c.isUpper || c.isLower || c.isDigit) = true := halnum
    rw [Bool.or_eq_true, Bool.or_eq_true] at hcases
    rcases hcases with (hc | hc) | hc
    · exact Nat.lt_of_le_of_lt (hupper hc) (by decide)
    · exact Nat.lt_of_le_of_lt (hlower hc) (by decide)
    · exact Nat.lt_of_le_of_lt (hdigit hc) (by decide)
  · decide

/-- A letter where nothing is open. -/
def start (c : Char) : List Token × Mode :=
  if isWordChar c then ([], .word [c])
  else if c = '"' then ([], .text [])
  else if c = '#' then ([], .directive)
  else if c.isWhitespace then ([], .between)
  else ([.mark c], .between)

def Mode.step : Mode → Char → List Token × Mode
  | .between, c => start c
  | .word w, c => if isWordChar c then ([], .word (w ++ [c]))
      else (.word w :: (start c).1, (start c).2)
  | .text t, c => if c = '"' then ([.text t], .between) else ([], .text (t ++ [c]))
  | .directive, c => ([], if c = '\n' then .between else .directive)

def lex (m : Mode) : List Char → List Token × Mode
  | [] => ([], m)
  | c :: cs =>
    let r := m.step c
    (r.1 ++ (lex r.2 cs).1, (lex r.2 cs).2)

/-- The end of the text ends a word; a quoted text that is not closed is none. -/
def Mode.finish : Mode → List Token
  | .word w => [.word w]
  | _ => []

def tokens (text : List Char) : List Token := (lex .between text).1 ++ (lex .between text).2.finish

/-- The tokens of a fixed piece of code. -/
def code (s : String) : List Token := tokens s.toList

example : code "a1 = \"b c\"; # d" =
    [.word ['a', '1'], .mark '=', .text ['b', ' ', 'c'], .mark ';'] := by decide

section Pieces

variable {m m' m'' : Mode} {xs ys : List Char} {ts us : List Token}

theorem lex_append (m : Mode) (xs ys : List Char) :
    lex m (xs ++ ys) = ((lex m xs).1 ++ (lex (lex m xs).2 ys).1, (lex (lex m xs).2 ys).2) := by
  induction xs generalizing m with
  | nil => rfl
  | cons c cs ih =>
    rw [List.cons_append, lex, ih]
    simp only [lex, List.append_assoc]

/-- Each piece goes on in the mode of the one before it. -/
theorem lex_trans (h : lex m xs = (ts, m')) (h' : lex m' ys = (us, m'')) :
    lex m (xs ++ ys) = (ts ++ us, m'') := by
  rw [lex_append, h]
  simp only [h']

theorem lex_eq {x y : List Token × Mode} (h : lex m xs = x)
    (hxy : x = y) : lex m xs = y := h.trans hxy

/-- A literal is the string of its letters. -/
theorem toList_literal {s : String} {l : List Char} (h : String.ofList l = s) : s.toList = l := by
  rw [← h, String.toList_ofList]

theorem lex_wordChars {w : List Char} (v : List Char) (h : ∀ c ∈ w, isWordChar c = true) :
    lex (.word v) w = ([], .word (v ++ w)) := by
  induction w generalizing v with
  | nil => rw [List.append_nil, lex]
  | cons c w ih =>
    have hc : isWordChar c = true := h c List.mem_cons_self
    have htail := ih (v ++ [c]) fun d hd => h d (List.mem_cons_of_mem c hd)
    simp only [lex, Mode.step, if_pos hc, htail, List.nil_append,
      List.append_assoc, List.cons_append]

/-- A word as it stands by itself. -/
def IsWord (w : List Char) : Prop := w ≠ [] ∧ ∀ c ∈ w, isWordChar c = true

instance (w : List Char) : Decidable (IsWord w) :=
  @instDecidableAnd _ _ inferInstance (List.decidableBAll (fun c => isWordChar c = true) w)

theorem lex_word {w : List Char} (h : IsWord w) : lex .between w = ([], .word w) := by
  cases w with
  | nil => exact absurd rfl h.1
  | cons c w =>
    have hc : isWordChar c = true := h.2 c List.mem_cons_self
    have htail := lex_wordChars [c] fun d hd => h.2 d (List.mem_cons_of_mem c hd)
    simp only [lex, Mode.step, start, if_pos hc, htail, List.nil_append, List.cons_append]

theorem IsWord.unquoted {w : List Char} (h : IsWord w) : ∀ c ∈ w, c ≠ '"' := by
  intro c hc hquote
  have hword : isWordChar c = true := h.2 c hc
  rw [hquote] at hword
  exact absurd hword (by decide)

theorem lex_text {t : List Char} (s : List Char) (h : ∀ c ∈ t, c ≠ '"') :
    lex (.text s) t = ([], .text (s ++ t)) := by
  induction t generalizing s with
  | nil => rw [List.append_nil, lex]
  | cons c t ih =>
    have hc : c ≠ '"' := h c List.mem_cons_self
    have htail := ih (s ++ [c]) fun d hd => h d (List.mem_cons_of_mem c hd)
    simp only [lex, Mode.step, if_neg hc, htail, List.nil_append,
      List.append_assoc, List.cons_append]

theorem lex_directive {t : List Char} (h : ∀ c ∈ t, c ≠ '\n') :
    lex .directive t = ([], .directive) := by
  induction t with
  | nil => rfl
  | cons c t ih =>
    have hc : c ≠ '\n' := h c List.mem_cons_self
    have htail := ih fun d hd => h d (List.mem_cons_of_mem c hd)
    simp only [lex, Mode.step, if_neg hc, htail, List.nil_append]

/-- White space in front of a piece. -/
theorem lex_blanks {t : List Char} (h : ∀ c ∈ t, c = ' ') : lex .between t = ([], .between) := by
  induction t with
  | nil => rfl
  | cons c t ih =>
    obtain rfl := h c List.mem_cons_self
    have htail := ih fun d hd => h d (List.mem_cons_of_mem ' ' hd)
    rw [lex, show Mode.step .between ' ' = ([], .between) from rfl, htail]
    rfl

end Pieces

section Readers

variable {ts us : List Token}

/-- Reads the tokens that are expected. -/
def expect : List Token → List Token → Option (List Token)
  | [], ts => some ts
  | _ :: _, [] => none
  | e :: es, t :: ts => if t = e then expect es ts else none

def skip (s : String) (ts : List Token) : Option (List Token) := expect (code s) ts

theorem expect_append (es ts : List Token) : expect es (es ++ ts) = some ts := by
  induction es with
  | nil => rfl
  | cons e es ih => rw [List.cons_append, expect, if_pos rfl, ih]

theorem skip_code (s : String) (ts : List Token) : skip s (code s ++ ts) = some ts :=
    expect_append (code s) ts

def word : List Token → Option (List Char × List Token)
  | .word w :: ts => some (w, ts)
  | _ => none

/-- The number that a word of digits is. -/
def numeral (w : List Char) : Option Nat :=
  if w ≠ [] ∧ w.all Char.isDigit then some (Nat.ofDigitChars 10 w 0) else none

theorem numeral_repr (n : Nat) : numeral n.repr.toList = some n := by
  have hdigits : n.repr.toList = Nat.toDigits 10 n := by
    rw [Nat.repr_eq_ofList_toDigits, String.toList_ofList]
  have hall : (Nat.toDigits 10 n).all Char.isDigit = true := by
    rw [List.all_eq_true]
    exact fun c hc => Nat.isDigit_of_mem_toDigits (by decide) (by decide) hc
  rw [numeral, hdigits, if_pos ⟨Nat.toDigits_ne_nil, hall⟩, Nat.ofDigitChars_ten_toDigits]

theorem isWord_repr (n : Nat) : IsWord n.repr.toList := by
  rw [Nat.repr_eq_ofList_toDigits, String.toList_ofList]
  refine ⟨Nat.toDigits_ne_nil, fun c hc => ?_⟩
  have hdigit : c.isDigit = true := Nat.isDigit_of_mem_toDigits (by decide) (by decide) hc
  simp [isWordChar, Char.isAlphanum, hdigit]

end Readers

section Blocks

/-- What is between braces, with what is in front of them; a brace too many ends the text. The
number is the depth, and the lists are the two parts as far as they have been read. -/
def blocksAt : Nat → List Token → List Token → List Token → List (List Token × List Token)
  | _, _, _, [] => []
  | 0, head, body, t :: ts =>
    if t = .mark '\x7b' then blocksAt 1 head body ts
    else if t = .mark '\x7d' then []
    else blocksAt 0 (head ++ [t]) body ts
  | k + 1, head, body, t :: ts =>
    if t = .mark '\x7b' then blocksAt (k + 2) head (body ++ [t]) ts
    else if t = .mark '\x7d' then
      if k = 0 then (head, body) :: blocksAt 0 [] [] ts else blocksAt k head (body ++ [t]) ts
    else blocksAt (k + 1) head (body ++ [t]) ts

def blocks (ts : List Token) : List (List Token × List Token) := blocksAt 0 [] [] ts

def Token.isBrace : Token → Bool
  | .mark c => c = '\x7b' || c = '\x7d'
  | _ => false

/-- No brace is in it. -/
def Plain (ts : List Token) : Prop := ts.all (fun t => !t.isBrace) = true

/-- Inside a block it is a part of it. -/
def Inside (ts : List Token) : Prop :=
  ∀ k head body us, blocksAt (k + 1) head body (ts ++ us) = blocksAt (k + 1) head (body ++ ts) us

variable {ts us head body : List Token}

theorem Plain.cons {t : Token} (h : Plain (t :: ts)) :
    t ≠ .mark '\x7b' ∧ t ≠ .mark '\x7d' ∧ Plain ts := by
  rw [Plain, List.all_cons, Bool.and_eq_true] at h
  obtain ⟨ht, hts⟩ := h
  refine ⟨?_, ?_, hts⟩
  · rintro rfl
    exact absurd ht (by decide)
  · rintro rfl
    exact absurd ht (by decide)

theorem Inside.append (h : Inside ts) (h' : Inside us) : Inside (ts ++ us) := by
  intro k head body vs
  rw [List.append_assoc, h, h', List.append_assoc]

theorem Plain.inside (h : Plain ts) : Inside ts := by
  induction ts with
  | nil =>
    intro k head body us
    rw [List.nil_append, List.append_nil]
  | cons t ts ih =>
    intro k head body us
    obtain ⟨hopen, hclose, hts⟩ := h.cons
    have htail := ih hts k head (body ++ [t]) us
    rw [List.cons_append, blocksAt, if_neg hopen, if_neg hclose, htail, List.append_assoc]
    rfl

/-- A block in a block. -/
theorem Inside.nest (h : Inside ts) : Inside (.mark '\x7b' :: (ts ++ [.mark '\x7d'])) := by
  intro k head body us
  have hinner := h (k + 1) head (body ++ [.mark '\x7b']) (.mark '\x7d' :: us)
  rw [List.cons_append, blocksAt, if_pos rfl, List.append_assoc,
    List.singleton_append, hinner, blocksAt,
    if_neg (by decide), if_pos rfl, if_neg (Nat.succ_ne_zero k),
      List.append_assoc, List.append_assoc]
  rfl

theorem blocksAt_head (h : Plain ts) (head us : List Token) :
    blocksAt 0 head [] (ts ++ us) = blocksAt 0 (head ++ ts) [] us := by
  induction ts generalizing head with
  | nil => rw [List.nil_append, List.append_nil]
  | cons t ts ih =>
    obtain ⟨hopen, hclose, hts⟩ := h.cons
    have htail := ih hts (head ++ [t])
    rw [List.cons_append, blocksAt, if_neg hopen, if_neg hclose, htail, List.append_assoc]
    rfl

/-- A block is read from the braces around it. -/
theorem blocks_block (hhead : Plain head) (hbody : Inside body) (ts : List Token) :
    blocks (head ++ .mark '\x7b' :: (body ++ .mark '\x7d' :: ts)) = (head, body) :: blocks ts := by
  rw [blocks, blocksAt_head hhead, List.nil_append, blocksAt, if_pos rfl,
    hbody, List.nil_append, blocksAt,
    if_neg (by decide), if_pos rfl, if_pos rfl, blocks]

theorem blocks_close (ts : List Token) : blocks (.mark '\x7d' :: ts) = [] := by
  rw [blocks, blocksAt, if_neg (by decide), if_pos rfl]

/-- The text of a block. -/
def blockTokens (b : List Token × List Token) : List Token :=
  b.1 ++ .mark '\x7b' :: (b.2 ++ [.mark '\x7d'])

/-- Blocks one after the other, up to a brace too many. -/
theorem blocks_flatMap {bs : List (List Token × List Token)} (h : ∀ b ∈ bs, Plain b.1 ∧ Inside b.2)
    (ts : List Token) : blocks (bs.flatMap blockTokens ++ .mark '\x7d' :: ts) = bs := by
  induction bs with
  | nil => exact blocks_close ts
  | cons b bs ih =>
    obtain ⟨hhead, hbody⟩ := h b List.mem_cons_self
    have htail := ih fun b' hb' => h b' (List.mem_cons_of_mem b hb')
    rw [List.flatMap_cons, blockTokens, List.append_assoc, List.append_assoc,
      List.cons_append, List.append_assoc,
      List.singleton_append, blocks_block hhead hbody, htail]

end Blocks

end Ucorf.Lexing
