import Ucorf.HproseReads

/-!
# Dates and times of hprose

`Read` for a `time_t` with its nanoseconds. The offsets into the literal are those of a
literal with one more byte, the month is not counted from zero, and of a fraction the
terminator is taken for a digit. The calendar of the C library is a parameter.
-/
namespace Ucorf.HproseDates

open Ucorf.Message
open Ucorf.Decimal
open Ucorf.HproseProtocol
open Ucorf.HproseReads

def tagDate : UInt8 := 68
def tagTime : UInt8 := 84
def tagUTC : UInt8 := 90
def tagPoint : UInt8 := 46

structure Tm where
  sec : Int
  min : Int
  hour : Int
  mday : Int
  mon : Int
  year : Int
  wday : Int
  yday : Int
  isdst : Int
  deriving DecidableEq, Repr

/-- After the `memset`. -/
def Tm.zero : Tm := ⟨0, 0, 0, 0, 0, 0, 0, 0, 0⟩

structure Clock where
  mktime : Tm → Int
  timegm : Tm → Int
  localtime : Int → Tm

/-- `mktime`, for a time in UTC of its local time. -/
def Clock.stamp (clock : Clock) (isUtc : Bool) (r : Tm) : Int :=
  clock.mktime (if isUtc then clock.localtime (clock.timegm r) else r)

section Reads

/-- `substr`, which throws past the end. -/
def substr (s : Bytes) (pos n : Nat) : Except StdException Bytes :=
  if pos ≤ s.length then .ok ((s.drop pos).take n) else .error .outOfRange

/-- `substr` to the end. -/
def substrFrom (s : Bytes) (pos : Nat) : Except StdException Bytes := substr s pos s.length

def resize (s : Bytes) (n : Nat) (c : UInt8) : Bytes := s.take n ++ List.replicate (n - s.length) c

/-- The date, and what is read as the time. -/
def readDay (s : Bytes) : Except StdException (Tm × Bytes) := do
  let year ← substr s 0 4
  let mon ← substr s 4 2
  let mday ← substr s 6 2
  let s ← substrFrom s 9
  return ({ Tm.zero with year := atoi year - 1900, mon := atoi mon, mday := atoi mday }, s)

/-- The day of a time without a date. -/
def firstDay : Tm := { Tm.zero with year := 70, mon := 0, mday := 1 }

def readHours (s : Bytes) (r : Tm) : Except StdException Tm := do
  let hour ← substr s 0 2
  let min ← substr s 2 4
  let sec ← substr s 4 6
  return { r with hour := atoi hour, min := atoi min, sec := atoi sec }

/-- The time and the fraction, with the targets that are left. -/
def readTime (clock : Clock) (isUtc : Bool) (r : Tm) (s : Bytes) (t nano : Int) :
    Except StdException (Bool × Int × Int) :=
  if s.length ≥ 6 then do
    let r ← readHours s r
    let t := clock.stamp isUtc r
    if s.length > 6 then
      if s[6]? ≠ some tagPoint then return (false, t, nano)
      else do
        let nanos ← substrFrom s 7
        if nanos.length > 9 then return (false, t, nano)
        else return (true, t, atoll (resize nanos 9 48))
    else return (true, t, 0)
  else return (true, t, nano)

/-- The literal with its terminator: up to a semicolon or, where none follows, to a `Z`. -/
def readLiteral (b : Buffer) : Bool × Bytes × Buffer :=
  let (s, b) := b.readUntil tagSemicolon
  if s.isEmpty then
    let (s, b) := b.readUntil tagUTC
    (true, s, b)
  else (false, s, b)

/-- The targets with the buffer that the literal leaves. -/
def leaving (b : Buffer) : Except StdException (Bool × Int × Int) → Reading (Int × Int)
  | .error e => .error e
  | .ok (ok, target) => .ok (ok, target, b)

/-- `__Read(time_t &, long long &)`. -/
def readDate' (clock : Clock) (t nano : Int) (b : Buffer) : Reading (Int × Int) :=
  match b.get with
  | (none, b) => .ok (false, (t, nano), b)
  | (some v, b) =>
    if v ≠ tagDate ∧ v ≠ tagTime then .ok (false, (t, nano), b)
    else
      let (isUtc, s, b) := readLiteral b
      if s.isEmpty then .ok (false, (t, nano), b)
      else if v = tagDate then
        if s.length < 8 then .ok (false, (t, nano), b)
        else
          leaving b do
            let (r, s) ← readDay s
            readTime clock isUtc r s t nano
      else leaving b (readTime clock isUtc firstDay s t nano)

def readDate (clock : Clock) (t nano : Int) (b : Buffer) : Reading (Int × Int) :=
  b.sentry (readDate' clock t nano b)

end Reads

section Literals

/-- A string of `n` digits. -/
structure Digits (n : Nat) where
  bytes : Bytes
  length_eq : bytes.length = n
  digits : ∀ d ∈ bytes, isDigit d = true

def Digits.val {n : Nat} (d : Digits n) : Int := (value d.bytes : Int)

structure Date where
  year : Digits 4
  mon : Digits 2
  day : Digits 2

structure Time where
  hour : Digits 2
  min : Digits 2
  sec : Digits 2
  frac : Bytes
  frac_digits : ∀ d ∈ frac, isDigit d = true
  frac_length : frac.length ≤ 9

def Date.text (d : Date) : Bytes := d.year.bytes ++ d.mon.bytes ++ d.day.bytes

def Time.text (t : Time) : Bytes :=
  t.hour.bytes ++ t.min.bytes ++ t.sec.bytes ++ if t.frac = [] then [] else tagPoint :: t.frac

/-- Nanoseconds. -/
def Time.nano (t : Time) : Int := (value t.frac * 10 ^ (9 - t.frac.length) : Nat)

inductive Body where
  | date : Date → Body
  | dateTime : Date → Time → Body
  | time : Time → Body

namespace Body

def tag : Body → UInt8
  | .date _ | .dateTime _ _ => tagDate
  | .time _ => tagTime

def text : Body → Bytes
  | .date d => d.text
  | .dateTime d t => d.text ++ tagTime :: t.text
  | .time t => t.text

def nano : Body → Int
  | .date _ => 0
  | .dateTime _ t | .time t => t.nano

end Body

def Tm.onDate (r : Tm) (d : Date) : Tm :=
  { r with year := d.year.val - 1900, mon := d.mon.val - 1, mday := d.day.val }

def Tm.atTime (r : Tm) (t : Time) : Tm :=
  { r with hour := t.hour.val, min := t.min.val, sec := t.sec.val }

/-- The broken-down time that is meant. -/
def Body.tm : Body → Tm
  | .date d => Tm.zero.onDate d
  | .dateTime d t => (Tm.zero.onDate d).atTime t
  | .time t => firstDay.atTime t

def terminator (isUtc : Bool) : UInt8 := if isUtc then tagUTC else tagSemicolon

structure Literal where
  body : Body
  isUtc : Bool

def Literal.text (l : Literal) : Bytes := l.body.tag :: (l.body.text ++ [terminator l.isUtc])

/-- The literal at the front is read as what it says, and nothing is read where there is none. -/
structure Decodes (clock : Clock) (t nano : Int) (b : Buffer) : Prop where
  literal : ∀ (l : Literal) (more : Bytes), b.rest = l.text ++ more →
    readDate clock t nano b =
      .ok (true, (clock.stamp l.isUtc l.body.tm, l.body.nano), b.skip l.text.length)
  malformed : (∀ (l : Literal) (more : Bytes), b.rest ≠ l.text ++ more) →
    readDate clock t nano b = .ok (false, (t, nano), b)

/-- The bytes before the first semicolon or, where there is none, before the first `Z`. -/
def token (r : Bytes) : Option (Bytes × Bool) :=
  if tagSemicolon ∈ r then some (r.takeWhile (· ≠ tagSemicolon), false)
  else if tagUTC ∈ r then some (r.takeWhile (· ≠ tagUTC), true)
  else none

/-- An hour without minutes and seconds, and a fraction of zeros that leaves room for the
terminator. -/
def FullHour (s : Bytes) : Prop :=
  ∃ time : Time, s = time.text ∧ time.min.val = 0 ∧ time.sec.val = 0 ∧ value time.frac = 0 ∧
    1 ≤ time.frac.length ∧ time.frac.length ≤ 8

/-- What is decoded all the same: anything without a terminator, a date that is too short,
and a full hour. -/
def Decodable : Bytes → Prop
  | [] => True
  | v :: r => ∀ s isUtc, token r = some (s, isUtc) →
    (v = tagDate → s.length ≤ 6) ∧ (v = tagTime → FullHour s)

end Literals

section Offsets

variable {s : Bytes} {pos : Nat} (n : Nat)

theorem substr_eq (h : pos ≤ s.length) : substr s pos n = .ok ((s.drop pos).take n) := if_pos h

theorem substrFrom_eq (h : pos ≤ s.length) : substrFrom s pos = .ok (s.drop pos) := by
  rw [substrFrom, substr_eq _ h, List.take_of_length_le]
  rw [List.length_drop]
  exact Nat.sub_le _ _

theorem substrFrom_past (h : s.length < pos) : substrFrom s pos = .error .outOfRange :=
  if_neg (Nat.not_le.mpr h)

/-- The fields that a time is read into. -/
def hours (s : Bytes) (r : Tm) : Tm :=
  { r with
    hour := atoi (s.take 2), min := atoi ((s.drop 2).take 4), sec := atoi ((s.drop 4).take 6) }

theorem readHours_eq (h : 6 ≤ s.length) (r : Tm) : readHours s r = .ok (hours s r) := by
  simp only [readHours, substr_eq _ (Nat.zero_le s.length),
    substr_eq _ (show 2 ≤ s.length by omega),
    substr_eq _ (show 4 ≤ s.length by omega), List.drop_zero]
  rfl

theorem readDay_past (h : s.length = 8) : readDay s = .error .outOfRange := by
  simp only [readDay, substr_eq _ (Nat.zero_le s.length), substr_eq _ (show 4 ≤ s.length by omega),
    substr_eq _ (show 6 ≤ s.length by omega), substrFrom_past (show s.length < 9 by omega)]
  rfl

/-- The fields that a date is read into. -/
def day (s : Bytes) : Tm :=
  { Tm.zero with
    year := atoi (s.take 4) - 1900, mon := atoi ((s.drop 4).take 2), mday :=
      atoi ((s.drop 6).take 2) }

theorem readDay_eq (h : 9 ≤ s.length) : readDay s = .ok (day s, s.drop 9) := by
  simp only [readDay, substr_eq _ (Nat.zero_le s.length), substr_eq _ (show 4 ≤ s.length by omega),
    substr_eq _ (show 6 ≤ s.length by omega), substrFrom_eq (show 9 ≤ s.length by omega),
    List.drop_zero]
  rfl

end Offsets

section Times

variable {clock : Clock} {isUtc : Bool} {r : Tm} {s : Bytes} {t nano : Int}

theorem readTime_short (h : s.length < 6) : readTime clock isUtc r s t nano = .ok (true, t, nano) :=
  if_neg (Nat.not_le.mpr h)

/-- What comes of the fraction, and the nanoseconds. -/
inductive Fraction (s : Bytes) (nano : Int) : Bool → Int → Prop where
  | absent (h : s.length = 6) : Fraction s nano true 0
  | refused (h : s[6]? = some tagPoint → 16 < s.length) : Fraction s nano false nano
  | padded (hpoint : s[6]? = some tagPoint) (hlen : s.length ≤ 16) :
      Fraction s nano true (atoll (resize (s.drop 7) 9 48))

/-- The time is set before the fraction is looked at. -/
theorem readTime_long (h : 6 ≤ s.length) : ∃ ok nano', Fraction s nano ok nano' ∧
    readTime clock isUtc r s t nano = .ok (ok, clock.stamp isUtc (hours s r), nano') := by
  rw [readTime, if_pos h, readHours_eq h]
  simp only [bind, Except.bind, pure, Except.pure]
  by_cases hlong : s.length > 6
  · rw [if_pos hlong, substrFrom_eq (show 7 ≤ s.length from hlong)]
    by_cases hpoint : s[6]? = some tagPoint
    · rw [if_neg (not_not.mpr hpoint)]
      dsimp only
      by_cases hnanos : (s.drop 7).length > 9
      · rw [if_pos hnanos]
        rw [List.length_drop] at hnanos
        exact ⟨_, _, .refused fun _ => by omega, rfl⟩
      · rw [if_neg hnanos]
        rw [List.length_drop] at hnanos
        exact ⟨_, _, .padded hpoint (by omega), rfl⟩
    · rw [if_pos hpoint]
      exact ⟨_, _, .refused fun h => absurd h hpoint, rfl⟩
  · rw [if_neg hlong]
    exact ⟨_, _, .absent (Nat.le_antisymm (Nat.not_lt.mp hlong) h), rfl⟩

end Times

section Scans

variable {r s : Bytes} {isUtc : Bool}

/-- No byte of a literal before its terminator is one. -/
def Clean (s : Bytes) : Prop := ∀ c ∈ s, c ≠ tagSemicolon ∧ c ≠ tagUTC

theorem takeWhile_first {c : UInt8} (hc : c ∈ r) :
    ∃ more, r = r.takeWhile (· ≠ c) ++ c :: more := by
  induction r with
  | nil => cases hc
  | cons v r ih =>
    by_cases hv : v = c
    · exact ⟨r, by simp [hv]⟩
    · obtain ⟨more, hmore⟩ := ih ((List.mem_cons.mp hc).resolve_left (Ne.symm hv))
      refine ⟨more, ?_⟩
      rw [List.takeWhile_cons_of_pos (by simpa using hv), List.cons_append, ← hmore]

theorem not_mem_takeWhile (c : UInt8) (r : Bytes) : c ∉ r.takeWhile (· ≠ c) := by
  intro hmem
  have hne := List.all_eq_true.mp List.all_takeWhile c hmem
  simp at hne

/-- Where the token ends. -/
theorem token_split (h : token r = some (s, isUtc)) :
    terminator isUtc ∉ s ∧ (isUtc = true → tagSemicolon ∉ r) ∧
    ∃ more, r = s ++ terminator isUtc :: more := by
  rw [token] at h
  split at h
  · rename_i hmem
    cases h
    exact ⟨not_mem_takeWhile _ r, by simp, takeWhile_first hmem⟩
  · rename_i hno
    split at h
    · rename_i hmem
      cases h
      exact ⟨not_mem_takeWhile _ r, fun _ => hno, takeWhile_first hmem⟩
    · cases h

theorem token_eq_none (h : token r = none) : tagSemicolon ∉ r ∧ tagUTC ∉ r := by
  rw [token] at h
  split at h
  · cases h
  · rename_i hsemicolon
    split at h
    · cases h
    · rename_i hutc
      exact ⟨hsemicolon, hutc⟩

/-- What is clean at the front is in the token. -/
theorem token_prefix {body rest : Bytes} (hbody : Clean body)
    (h : token (body ++ rest) = some (s, isUtc)) : body <+: s := by
  have hfront (c : UInt8) (hc : ∀ v ∈ body, v ≠ c) : body <+: (body ++ rest).takeWhile (· ≠ c) := by
    rw [List.takeWhile_append_of_pos (by simpa using hc)]
    exact List.prefix_append _ _
  rw [token] at h
  split at h
  · cases h
    exact hfront _ fun v hv => (hbody v hv).1
  · split at h
    · cases h
      exact hfront _ fun v hv => (hbody v hv).2
    · cases h

theorem readLiteral_some {b : Buffer} (h : token b.rest = some (s, isUtc)) :
    readLiteral b = (isUtc, s ++ [terminator isUtc], b.skip (s.length + 1)) := by
  obtain ⟨hclean, hno, more, hrest⟩ := token_split h
  cases isUtc with
  | false =>
    have hread := Buffer.readUntil_append (c := tagSemicolon) (by decide) hclean hrest
    simp [readLiteral, hread, terminator]
  | true =>
    have hread := Buffer.readUntil_append (c := tagUTC) (by decide) hclean hrest
    have hnone := readUntil_none (untilDelim_eq_none (c := tagSemicolon) (hno rfl))
    simp [readLiteral, hread, hnone, terminator]

theorem readLiteral_none {b : Buffer} (h : token b.rest = none) :
    readLiteral b = (true, [], b) := by
  obtain ⟨hsemicolon, hutc⟩ := token_eq_none h
  have hnone := readUntil_none (untilDelim_eq_none (c := tagSemicolon) hsemicolon)
  have hnone' := readUntil_none (untilDelim_eq_none (c := tagUTC) hutc)
  simp [readLiteral, hnone, hnone']

end Scans

section Texts

theorem clean_digits {s : Bytes} (h : ∀ d ∈ s, isDigit d = true) : Clean s := by
  intro c hc
  constructor
  · rintro rfl
    exact absurd (h _ hc) (by decide)
  · rintro rfl
    exact absurd (h _ hc) (by decide)

theorem Clean.append {s s' : Bytes} (h : Clean s) (h' : Clean s') : Clean (s ++ s') := by
  intro c hc
  exact (List.mem_append.mp hc).elim (h c) (h' c)

theorem Clean.cons {s : Bytes} {c : UInt8} (hc : c ≠ tagSemicolon ∧ c ≠ tagUTC) (h : Clean s) :
    Clean (c :: s) := by
  intro d hd
  cases hd with
  | head => exact hc
  | tail _ hd => exact h d hd

theorem Digits.clean {n : Nat} (d : Digits n) : Clean d.bytes := clean_digits d.digits

theorem Date.clean (d : Date) : Clean d.text := (d.year.clean.append d.mon.clean).append d.day.clean

theorem Time.clean (t : Time) : Clean t.text := by
  refine ((t.hour.clean.append t.min.clean).append t.sec.clean).append ?_
  split
  · intro c hc
    cases hc
  · exact (clean_digits t.frac_digits).cons (by decide)

theorem Body.clean (body : Body) : Clean body.text := by
  cases body with
  | date d => exact d.clean
  | dateTime d t => exact d.clean.append (t.clean.cons (by decide))
  | time t => exact t.clean

theorem Date.text_length (d : Date) : d.text.length = 8 := by
  simp [Date.text, d.year.length_eq, d.mon.length_eq, d.day.length_eq]

theorem Time.text_length (t : Time) :
    t.text.length = if t.frac = [] then 6 else t.frac.length + 7 := by
  rw [Time.text]
  split
  · simp [t.hour.length_eq, t.min.length_eq, t.sec.length_eq]
  · simp [t.hour.length_eq, t.min.length_eq, t.sec.length_eq]
    omega

theorem Time.le_length (t : Time) : 6 ≤ t.text.length := by
  rw [t.text_length]
  split <;> omega

theorem Digits.eq_of_bytes {n : Nat} {d e : Digits n} (h : d.bytes = e.bytes) : d = e := by
  cases d
  cases e
  cases h
  rfl

/-- A time is read from its text in one way. -/
theorem Time.text_injective {t u : Time} (h : t.text = u.text) : t = u := by
  have hlen (x y : Digits 2) : x.bytes.length = y.bytes.length := x.length_eq.trans y.length_eq.symm
  obtain ⟨hour, min, sec, frac, _, _⟩ := t
  obtain ⟨hour', min', sec', frac', _, _⟩ := u
  simp only [Time.text, List.append_assoc] at h
  obtain ⟨hhour, h⟩ := List.append_inj h (hlen _ _)
  obtain ⟨hmin, h⟩ := List.append_inj h (hlen _ _)
  obtain ⟨hsec, h⟩ := List.append_inj h (hlen _ _)
  obtain rfl := Digits.eq_of_bytes hhour
  obtain rfl := Digits.eq_of_bytes hmin
  obtain rfl := Digits.eq_of_bytes hsec
  have hfrac : frac = frac' := by
    by_cases hnil : frac = [] <;> by_cases hnil' : frac' = [] <;> simp_all
  subst hfrac
  rfl

theorem literal_tail {v : UInt8} {r : Bytes} {l : Literal} {more : Bytes}
    (h : v :: r = l.text ++ more) :
    v = l.body.tag ∧ r = l.body.text ++ terminator l.isUtc :: more := by
  rw [Literal.text, List.cons_append, List.cons.injEq, List.append_assoc,
    List.singleton_append] at h
  exact h

/-- Where the literal is, its text but the terminator is at the front of the token. -/
theorem literal_rest {v : UInt8} {r s : Bytes} {isUtc : Bool} {l : Literal} {more : Bytes}
    (h : v :: r = l.text ++ more)
    (hr : token r = some (s, isUtc)) : v = l.body.tag ∧ l.body.text <+: s := by
  obtain ⟨htag, rfl⟩ := literal_tail h
  exact ⟨htag, token_prefix l.body.clean hr⟩

end Texts

section Fields

theorem Digits.atoi_eq (d : Digits 2) {tail : Bytes} (h : ∀ c ∈ tail.head?, isDigit c = false) :
    atoi (d.bytes ++ tail) = d.val := by
  have hne : d.bytes ≠ [] := List.ne_nil_of_length_pos (by rw [d.length_eq]; decide)
  exact atoi_digits hne d.digits (by rw [d.length_eq]; decide) h

theorem Digits.atoi_bytes (d : Digits 2) : atoi d.bytes = d.val := by
  have hatoi : atoi (d.bytes ++ []) = d.val := d.atoi_eq (by simp)
  rwa [List.append_nil] at hatoi

/-- The month stands where the source looks for it. -/
theorem day_mon {d : Date} {x : Bytes} : (day (d.text ++ x)).mon = d.mon.val := by
  have hdrop : (d.text ++ x).drop 4 = d.mon.bytes ++ (d.day.bytes ++ x) := by
    rw [Date.text, List.append_assoc, List.append_assoc, List.drop_left' d.year.length_eq]
  simp only [day, hdrop, List.take_left' d.mon.length_eq]
  exact d.mon.atoi_bytes

variable {t : Time} {x : Bytes}

theorem text_eq (hfrac : t.frac ≠ []) :
    t.text ++ x = t.hour.bytes ++ (t.min.bytes ++ (t.sec.bytes ++ tagPoint :: (t.frac ++ x))) := by
  simp [Time.text, hfrac]

theorem drop_min (hfrac : t.frac ≠ []) :
    (t.text ++ x).drop 2 = t.min.bytes ++ (t.sec.bytes ++ tagPoint :: (t.frac ++ x)) := by
  rw [text_eq hfrac, List.drop_left' t.hour.length_eq]

theorem drop_sec (hfrac : t.frac ≠ []) :
    (t.text ++ x).drop 4 = t.sec.bytes ++ tagPoint :: (t.frac ++ x) := by
  have hdrop : (t.text ++ x).drop 4 = ((t.text ++ x).drop 2).drop 2 := by rw [List.drop_drop]
  rw [hdrop, drop_min hfrac, List.drop_left' t.min.length_eq]

theorem drop_point (hfrac : t.frac ≠ []) : (t.text ++ x).drop 6 = tagPoint :: (t.frac ++ x) := by
  have hdrop : (t.text ++ x).drop 6 = ((t.text ++ x).drop 4).drop 2 := by rw [List.drop_drop]
  rw [hdrop, drop_sec hfrac, List.drop_left' t.sec.length_eq]

theorem getElem_point (hfrac : t.frac ≠ []) : (t.text ++ x)[6]? = some tagPoint := by
  have hget : ((t.text ++ x).drop 6)[0]? = some tagPoint := by
    rw [drop_point hfrac]
    rfl
  rwa [List.getElem?_drop] at hget

/-- The minutes are read together with the seconds. -/
theorem hours_min (hfrac : t.frac ≠ []) (r : Tm) :
    (hours (t.text ++ x) r).min = (value (t.min.bytes ++ t.sec.bytes) : Int) := by
  have hlen : (t.min.bytes ++ t.sec.bytes).length = 4 := by
    rw [List.length_append, t.min.length_eq, t.sec.length_eq]
  have hne : t.min.bytes ++ t.sec.bytes ≠ [] := List.ne_nil_of_length_pos (by rw [hlen]; decide)
  have hdigits : ∀ d ∈ t.min.bytes ++ t.sec.bytes, isDigit d = true :=
    List.forall_mem_append.mpr ⟨t.min.digits, t.sec.digits⟩
  have hatoi := atoi_digits (t := []) hne hdigits (by rw [hlen]; decide) (by simp)
  rw [List.append_nil] at hatoi
  simp only [hours, drop_min hfrac]
  rw [← List.append_assoc, List.take_left' hlen, hatoi]

theorem min_add_sec (t : Time) :
    (value (t.min.bytes ++ t.sec.bytes) : Int) = t.min.val * 100 + t.sec.val := by
  rw [value_append, t.sec.length_eq]
  simp [Digits.val]

/-- The other fields are read as they stand. -/
theorem hours_eq (hfrac : t.frac ≠ []) (r : Tm) :
    hours (t.text ++ x) r = { r.atTime t with min := t.min.val * 100 + t.sec.val } := by
  have hmin := hours_min (x := x) hfrac r
  rw [min_add_sec] at hmin
  have hhour : (hours (t.text ++ x) r).hour = t.hour.val := by
    simp only [hours, text_eq hfrac, List.take_left' t.hour.length_eq]
    exact t.hour.atoi_bytes
  have hsec : (hours (t.text ++ x) r).sec = t.sec.val := by
    simp only [hours, drop_sec hfrac]
    rw [List.take_append, t.sec.length_eq, List.take_of_length_le (by rw [t.sec.length_eq]; decide)]
    refine t.sec.atoi_eq fun c hc => ?_
    cases hc
    decide
  have hfields : hours (t.text ++ x) r = { r with
      hour := (hours (t.text ++ x) r).hour, min := (hours (t.text ++ x) r).min,
      sec := (hours (t.text ++ x) r).sec } := rfl
  rw [hfields, hhour, hmin, hsec]
  rfl

/-- A fraction with its terminator is padded by less than nine digits. -/
theorem fraction_eq (hfrac : t.frac ≠ []) (hlen : t.frac.length ≤ 8) {c : UInt8}
    (hc : isDigit c = false) :
    atoll (resize ((t.text ++ [c]).drop 7) 9 48) = value t.frac := by
  have hdrop : (t.text ++ [c]).drop 7 = t.frac ++ [c] := by
    have hdrop : (t.text ++ [c]).drop 7 = ((t.text ++ [c]).drop 6).drop 1 := by rw [List.drop_drop]
    rw [hdrop, drop_point hfrac, List.drop_succ_cons, List.drop_zero]
  have hle : (t.frac ++ [c]).length ≤ 9 := by
    rw [List.length_append, List.length_singleton]
    omega
  rw [hdrop, resize, List.take_of_length_le hle, List.append_assoc]
  refine atoll_digits hfrac t.frac_digits t.frac_length fun d hd => ?_
  cases hd
  exact hc

end Fields

section Readings

variable {clock : Clock} {t nano : Int} {b : Buffer} {v : UInt8} {r s : Bytes} {isUtc : Bool}

theorem readDate_nil (h : b.rest = []) : readDate clock t nano b = .ok (false, (t, nano), b) := by
  rw [readDate, readDate', get_nil h]
  rfl

theorem readDate_other (h : b.rest = v :: r) (hv : v ≠ tagDate ∧ v ≠ tagTime) :
    readDate clock t nano b = .ok (false, (t, nano), b) := by
  simp only [readDate, readDate', Buffer.get_cons h, if_pos hv]
  rfl

theorem readDate_unended (h : b.rest = v :: r) (hr : token r = none) :
    readDate clock t nano b = .ok (false, (t, nano), b) := by
  by_cases hv : v ≠ tagDate ∧ v ≠ tagTime
  · exact readDate_other h hv
  · have hliteral := readLiteral_none (b := b.skip 1) (by rw [Buffer.rest_skip_cons h]; exact hr)
    simp only [readDate, readDate', Buffer.get_cons h, if_neg hv, hliteral]
    rfl

/-- What is read of a date, up to the buffer that it leaves. -/
def dateTarget (clock : Clock) (isUtc : Bool) (s : Bytes) (t nano : Int) :
    Except StdException (Bool × Int × Int) :=
  if s.length < 8 then .ok (false, t, nano)
  else do
    let (r, s) ← readDay s
    readTime clock isUtc r s t nano

theorem readDate_token (h : b.rest = v :: r) (hv : v = tagDate ∨ v = tagTime)
    (hr : token r = some (s, isUtc)) :
    readDate clock t nano b = b.sentry (leaving (b.skip (s.length + 2))
      (if v = tagDate then dateTarget clock isUtc (s ++ [terminator isUtc]) t nano
        else readTime clock isUtc firstDay (s ++ [terminator isUtc]) t nano)) := by
  have htag : ¬ (v ≠ tagDate ∧ v ≠ tagTime) := by
    rintro ⟨hdate, htime⟩
    exact hv.elim hdate htime
  have hliteral := readLiteral_some (b := b.skip 1) (by rw [Buffer.rest_skip_cons h]; exact hr)
  have hne : (s ++ [terminator isUtc]).isEmpty = false := by simp
  have hskip : (b.skip 1).skip (s.length + 1) = b.skip (s.length + 2) := by
    rw [Buffer.skip_skip, Nat.add_comm 1]
  simp only [readDate, readDate', Buffer.get_cons h, if_neg htag, hliteral, hne, hskip,
    Bool.false_eq_true, if_false, dateTarget]
  by_cases hdate : v = tagDate
  · rw [if_pos hdate, if_pos hdate]
    split <;> rfl
  · rw [if_neg hdate, if_neg hdate]

theorem readDate_date (h : b.rest = tagDate :: r) (hr : token r = some (s, isUtc)) :
    readDate clock t nano b =
      b.sentry (leaving (b.skip (s.length + 2))
        (dateTarget clock isUtc (s ++ [terminator isUtc]) t nano)) := by
  rw [readDate_token h (.inl rfl) hr, if_pos rfl]

theorem readDate_time (h : b.rest = tagTime :: r) (hr : token r = some (s, isUtc)) :
    readDate clock t nano b =
      b.sentry (leaving (b.skip (s.length + 2))
        (readTime clock isUtc firstDay (s ++ [terminator isUtc]) t nano)) := by
  have hdate : tagTime ≠ tagDate := by decide
  rw [readDate_token h (.inr rfl) hr, if_neg hdate]

theorem dateTarget_short (h : s.length < 8) :
    dateTarget clock isUtc s t nano = .ok (false, t, nano) := if_pos h

theorem dateTarget_past (h : s.length = 8) :
    dateTarget clock isUtc s t nano = .error .outOfRange := by
  rw [dateTarget, if_neg (by omega), readDay_past h]
  rfl

theorem dateTarget_long (h : 9 ≤ s.length) :
    dateTarget clock isUtc s t nano = readTime clock isUtc (day s) (s.drop 9) t nano := by
  rw [dateTarget, if_neg (by omega), readDay_eq h]
  rfl

end Readings

section Decoding

variable {clock : Clock} {t nano : Int} {b : Buffer} {v : UInt8} {r s : Bytes} {isUtc : Bool}

/-- A read that throws does not decode. -/
theorem Decodes.returns (h : Decodes clock t nano b) (e : StdException) :
    readDate clock t nano b ≠ .error e := by
  intro hread
  by_cases hex : ∃ (l : Literal) (more : Bytes), b.rest = l.text ++ more
  · obtain ⟨l, more, hrest⟩ := hex
    rw [h.literal l more hrest] at hread
    cases hread
  · rw [h.malformed fun l more hrest => hex ⟨l, more, hrest⟩] at hread
    cases hread

/-- What a read that decodes leaves: what was there, or what a literal says. -/
theorem Decodes.target {ok : Bool} {t' nano' : Int} {k : Nat} (h : Decodes clock t nano b)
    (hread : readDate clock t nano b = b.sentry (leaving (b.skip k) (.ok (ok, t', nano')))) :
    (ok = false ∧ t' = t ∧ nano' = nano) ∨
    (ok = true ∧ ∃ (l : Literal) (more : Bytes), b.rest = l.text ++ more ∧
      t' = clock.stamp l.isUtc l.body.tm ∧ nano' = l.body.nano ∧ k = l.text.length) := by
  by_cases hex : ∃ (l : Literal) (more : Bytes), b.rest = l.text ++ more
  · right
    obtain ⟨l, more, hrest⟩ := hex
    rw [h.literal l more hrest] at hread
    cases ok with
    | false => cases hread
    | true =>
      simp only [leaving, Buffer.sentry_true, Except.ok.injEq, Prod.mk.injEq, true_and, Buffer.skip,
        Buffer.mk.injEq, Nat.add_left_cancel_iff] at hread
      exact ⟨rfl, l, more, hrest, hread.1.1.symm, hread.1.2.symm, hread.2.symm⟩
  · left
    rw [h.malformed fun l more hrest => hex ⟨l, more, hrest⟩] at hread
    cases ok with
    | true => cases hread
    | false =>
      simp only [leaving, Buffer.sentry_false, Except.ok.injEq, Prod.mk.injEq, true_and] at hread
      exact ⟨rfl, hread.1.1.symm, hread.1.2.symm⟩

/-- A clock that shows the month. -/
def monthClock : Clock := ⟨Tm.mon, Tm.mon, fun i => { Tm.zero with mon := i }⟩

/-- A clock that shows the minutes. -/
def minuteClock : Clock := ⟨Tm.min, Tm.min, fun i => { Tm.zero with min := i }⟩

theorem monthClock_stamp (isUtc : Bool) (r : Tm) : monthClock.stamp isUtc r = r.mon := by
  cases isUtc <;> rfl

theorem minuteClock_stamp (isUtc : Bool) (r : Tm) : minuteClock.stamp isUtc r = r.min := by
  cases isUtc <;> rfl

theorem Body.date_front {body : Body} (h : tagDate = body.tag) :
    ∃ d : Date, d.text <+: body.text ∧ body.tm.mon = d.mon.val - 1 := by
  cases body with
  | date d => exact ⟨d, List.prefix_rfl, rfl⟩
  | dateTime d t => exact ⟨d, List.prefix_append _ _, rfl⟩
  | time t => exact absurd h (show tagDate ≠ tagTime by decide)

/-- The month of a literal is one less than what the source reads there. -/
theorem month_of_literal {l : Literal} {more : Bytes} (hr : token r = some (s, isUtc))
    (hl : tagDate :: r = l.text ++ more) :
    l.body.tm.mon = (day (s ++ [terminator isUtc])).mon - 1 := by
  obtain ⟨htag, hprefix⟩ := literal_rest hl hr
  obtain ⟨d, hfront, hmon⟩ := Body.date_front htag
  obtain ⟨x, rfl⟩ := hfront.trans hprefix
  rw [hmon, List.append_assoc, day_mon]

/-- A date is decoded at most where it is too short to be one. -/
theorem date_too_short (h : b.rest = tagDate :: r) (hr : token r = some (s, isUtc))
    (hall : ∀ t, Decodes monthClock t 0 b) : s.length ≤ 6 := by
  by_contra hlong
  have hlen : (s ++ [terminator isUtc]).length = s.length + 1 := by
    rw [List.length_append, List.length_singleton]
  have hread (t : Int) : readDate monthClock t 0 b =
      b.sentry (leaving (b.skip (s.length + 2))
        (dateTarget monthClock isUtc (s ++ [terminator isUtc]) t 0)) :=
    readDate_date h hr
  have hmonth (l : Literal) (more : Bytes) (hl : b.rest = l.text ++ more) :=
    month_of_literal hr (h ▸ hl)
  by_cases hpast : s.length = 7
  · have hthrows := hread 0
    rw [dateTarget_past (by omega)] at hthrows
    exact (hall 0).returns _ hthrows
  · simp only [dateTarget_long (show 9 ≤ (s ++ [terminator isUtc]).length by omega)] at hread
    by_cases hshort : ((s ++ [terminator isUtc]).drop 9).length < 6
    · have hkept := hread (day (s ++ [terminator isUtc])).mon
      rw [readTime_short hshort] at hkept
      obtain ⟨hok, -⟩ | ⟨-, l, more, hl, ht, -⟩ := (hall _).target hkept
      · cases hok
      · rw [monthClock_stamp, hmonth l more hl] at ht
        omega
    · have hset := hread ((day (s ++ [terminator isUtc])).mon + 1)
      obtain ⟨ok, nano', -, hresult⟩ := readTime_long (Nat.not_lt.mp hshort)
      have hmon : (hours ((s ++ [terminator isUtc]).drop 9) (day (s ++ [terminator isUtc]))).mon =
          (day (s ++ [terminator isUtc])).mon := rfl
      rw [hresult, monthClock_stamp, hmon] at hset
      obtain ⟨-, hkept, -⟩ | ⟨-, l, more, hl, ht, -⟩ := (hall _).target hset
      · omega
      · rw [monthClock_stamp, hmonth l more hl] at ht
        omega

theorem Body.time_of_tag {body : Body} (h : tagTime = body.tag) :
    ∃ time : Time, body = .time time := by
  cases body with
  | date d => exact absurd h (show tagTime ≠ tagDate by decide)
  | dateTime d t => exact absurd h (show tagTime ≠ tagDate by decide)
  | time t => exact ⟨t, rfl⟩

theorem time_of_literal {l : Literal} {more : Bytes} (hr : token r = some (s, isUtc))
    (hl : tagTime :: r = l.text ++ more) :
    ∃ time : Time, l.body = .time time ∧ time.text <+: s := by
  obtain ⟨htag, hprefix⟩ := literal_rest hl hr
  obtain ⟨time, htime⟩ := Body.time_of_tag htag
  rw [htime] at hprefix
  exact ⟨time, htime, hprefix⟩

theorem Digits.val_nonneg {n : Nat} (d : Digits n) : 0 ≤ d.val := Int.natCast_nonneg _

theorem terminator_not_digit (isUtc : Bool) : isDigit (terminator isUtc) = false := by
  cases isUtc <;> decide

/-- Minutes and nanoseconds are read as they are only if there are none. -/
theorem fullHour_of_fraction {time : Time}
    (h : Fraction (time.text ++ [terminator isUtc]) 0 true time.nano)
    (hmin : (hours (time.text ++ [terminator isUtc]) firstDay).min = time.min.val) :
    FullHour time.text := by
  have hlen : (time.text ++ [terminator isUtc]).length = time.text.length + 1 := by
    rw [List.length_append, List.length_singleton]
  have hle := time.le_length
  generalize hnano : time.nano = nano at h
  cases h with
  | absent hsix => omega
  | padded hpoint hwidth =>
    have hfrac : time.frac ≠ [] := by
      intro hnil
      have hsix := time.text_length
      rw [if_pos hnil] at hsix
      rw [← hsix, List.getElem?_concat_length, Option.some.injEq] at hpoint
      cases isUtc with
      | true => exact absurd hpoint (by decide)
      | false => exact absurd hpoint (by decide)
    have hseven := time.text_length
    rw [if_neg hfrac] at hseven
    have hpos : 1 ≤ time.frac.length := List.length_pos_iff.mpr hfrac
    have hwidth8 : time.frac.length ≤ 8 := by omega
    rw [fraction_eq hfrac hwidth8 (terminator_not_digit isUtc)] at hnano
    rw [hours_eq hfrac] at hmin
    dsimp only at hmin
    have hmin0 := time.min.val_nonneg
    have hsec0 := time.sec.val_nonneg
    have hvalue : value time.frac = 0 := by
      obtain ⟨k, hk⟩ : ∃ k, 9 - time.frac.length = k + 1 := ⟨8 - time.frac.length, by omega⟩
      have hpow : 1 ≤ 10 ^ k := Nat.pow_pos (by decide)
      rw [Time.nano, hk, Nat.pow_succ, Int.ofNat_inj, ← Nat.mul_assoc] at hnano
      have hle : value time.frac ≤ value time.frac * 10 ^ k := Nat.le_mul_of_pos_right _ hpow
      omega
    exact ⟨time, rfl, by omega, by omega, hvalue, hpos, hwidth8⟩

/-- A time is decoded at most where it is a full hour. -/
theorem time_full_hour (h : b.rest = tagTime :: r) (hr : token r = some (s, isUtc))
    (hall : ∀ t, Decodes minuteClock t 0 b) : FullHour s := by
  have hlen : (s ++ [terminator isUtc]).length = s.length + 1 := by
    rw [List.length_append, List.length_singleton]
  have hread (t : Int) : readDate minuteClock t 0 b =
      b.sentry (leaving (b.skip (s.length + 2))
        (readTime minuteClock isUtc firstDay (s ++ [terminator isUtc]) t 0)) :=
    readDate_time h hr
  have htime (l : Literal) (more : Bytes) (hl : b.rest = l.text ++ more) :=
    time_of_literal hr (h ▸ hl)
  by_cases hshort : (s ++ [terminator isUtc]).length < 6
  · have hkept := hread 0
    rw [readTime_short hshort] at hkept
    obtain ⟨hok, -⟩ | ⟨-, l, more, hl, -⟩ := (hall _).target hkept
    · cases hok
    · obtain ⟨time, -, hprefix⟩ := htime l more hl
      have hle := time.le_length
      have hle' := hprefix.length_le
      omega
  · have hset := hread ((hours (s ++ [terminator isUtc]) firstDay).min + 1)
    obtain ⟨ok, nano', hfraction, hresult⟩ := readTime_long (Nat.not_lt.mp hshort)
    rw [hresult, minuteClock_stamp] at hset
    obtain ⟨-, hkept, -⟩ | ⟨hok, l, more, hl, ht, hnano, hwidth⟩ := (hall _).target hset
    · omega
    · obtain ⟨time, hbody, hprefix⟩ := htime l more hl
      have hle := time.le_length
      have htext : time.text = s := by
        apply hprefix.eq_of_length
        rw [Literal.text, hbody] at hwidth
        simp [Body.text] at hwidth
        omega
      subst htext
      rw [minuteClock_stamp, hbody] at ht
      rw [hok, hnano, hbody] at hfraction
      exact fullHour_of_fraction hfraction ht

theorem terminator_not_clean {c : UInt8} (hc : c ≠ tagSemicolon ∧ c ≠ tagUTC) (isUtc : Bool) :
    c ≠ terminator isUtc := by
  cases isUtc with
  | true => exact hc.2
  | false => exact hc.1

/-- Two clean strings that end at the first terminator of one string. -/
theorem clean_unique {s' more more' : Bytes} {isUtc' : Bool} (hs : Clean s) (hs' : Clean s')
    (h : s ++ terminator isUtc :: more = s' ++ terminator isUtc' :: more') :
    s = s' ∧ isUtc = isUtc' := by
  induction s generalizing s' with
  | nil =>
    cases s' with
    | nil =>
      obtain ⟨hterminator, -⟩ := List.cons.inj h
      cases isUtc <;> cases isUtc' <;>
        first | exact ⟨rfl, rfl⟩ | exact absurd hterminator (by decide)
    | cons c s' =>
      exact absurd (List.cons.inj h).1.symm (terminator_not_clean (hs' c List.mem_cons_self) isUtc)
  | cons c s ih =>
    cases s' with
    | nil =>
      exact absurd (List.cons.inj h).1 (terminator_not_clean (hs c List.mem_cons_self) isUtc')
    | cons c' s' =>
      obtain ⟨rfl, htail⟩ := List.cons.inj h
      obtain ⟨rfl, rfl⟩ := ih (fun d hd => hs d (List.mem_cons_of_mem _ hd))
        (fun d hd => hs' d (List.mem_cons_of_mem _ hd)) htail
      exact ⟨rfl, rfl⟩

/-- A full hour is what its literal says. -/
theorem readDate_full_hour {more : Bytes} {time : Time}
    (h : b.rest = (Literal.mk (.time time) isUtc).text ++ more)
    (hr : token (time.text ++ terminator isUtc :: more) = some (time.text, isUtc))
    (hmin : time.min.val = 0)
    (hsec : time.sec.val = 0) (hfrac : value time.frac = 0) (hpos : 1 ≤ time.frac.length)
    (hwidth8 : time.frac.length ≤ 8) :
    readDate clock t nano b =
      .ok (true, (clock.stamp isUtc (Body.time time).tm, (Body.time time).nano),
      b.skip (Literal.mk (.time time) isUtc).text.length) := by
  have hne : time.frac ≠ [] := List.length_pos_iff.mp hpos
  have hlen : (time.text ++ [terminator isUtc]).length = time.frac.length + 8 := by
    rw [List.length_append, time.text_length, if_neg hne, List.length_singleton]
  have hrest : b.rest = tagTime :: (time.text ++ terminator isUtc :: more) := by
    rw [h]
    simp [Literal.text, Body.tag, Body.text]
  have hhours : hours (time.text ++ [terminator isUtc]) firstDay = (Body.time time).tm := by
    rw [hours_eq hne, hmin, hsec, Int.zero_mul, Int.zero_add, ← hmin]
    rfl
  have hnano : (Body.time time).nano = 0 := by
    show time.nano = 0
    rw [Time.nano, hfrac, Nat.zero_mul]
    rfl
  have hskip : (Literal.mk (.time time) isUtc).text.length = time.text.length + 2 := by
    simp [Literal.text, Body.text]
  obtain ⟨ok, nano', hfraction, hresult⟩ :
      ∃ ok nano', Fraction (time.text ++ [terminator isUtc]) nano ok nano' ∧
        readTime clock isUtc firstDay (time.text ++ [terminator isUtc]) t nano =
          .ok (ok, clock.stamp isUtc (hours (time.text ++ [terminator isUtc]) firstDay), nano') :=
    readTime_long (by omega)
  rw [readDate_time hrest hr, hresult, hhours, hnano, hskip]
  cases hfraction with
  | absent hsix => omega
  | refused hno =>
    have hlong := hno (getElem_point hne)
    omega
  | padded hpoint hwidth =>
    rw [fraction_eq hne hwidth8 (terminator_not_digit isUtc), hfrac]
    rfl

/-- Where there is no literal, nothing has to be read. -/
theorem decodes_of_malformed (hno : ∀ (l : Literal) (more : Bytes), b.rest ≠ l.text ++ more)
    (hread : readDate clock t nano b = .ok (false, (t, nano), b)) : Decodes clock t nano b :=
  ⟨fun l more hl => absurd hl (hno l more), fun _ => hread⟩

theorem decodes_of_decodable (h : Decodable b.rest) (clock : Clock) (t nano : Int) :
    Decodes clock t nano b := by
  cases hrest : b.rest with
  | nil =>
    refine decodes_of_malformed (fun l more hl => ?_) (readDate_nil hrest)
    rw [hrest] at hl
    cases hl
  | cons v r =>
    rw [hrest] at h
    cases hr : token r with
    | none =>
      refine decodes_of_malformed (fun l more hl => ?_) (readDate_unended hrest hr)
      rw [hrest] at hl
      obtain ⟨-, htail⟩ := literal_tail hl
      obtain ⟨hsemicolon, hutc⟩ := token_eq_none hr
      have hmem : terminator l.isUtc ∈ r := by simp [htail]
      cases hend : l.isUtc with
      | true =>
        rw [hend] at hmem
        exact hutc hmem
      | false =>
        rw [hend] at hmem
        exact hsemicolon hmem
    | some p =>
      obtain ⟨s, isUtc⟩ := p
      obtain ⟨hdate, htime⟩ := h s isUtc hr
      by_cases hd : v = tagDate
      · subst hd
        refine decodes_of_malformed (fun l more hl => ?_) ?_
        · rw [hrest] at hl
          obtain ⟨htag, hprefix⟩ := literal_rest hl hr
          obtain ⟨d, hfront, -⟩ := Body.date_front htag
          have hle := (hfront.trans hprefix).length_le
          have hshort := hdate rfl
          rw [d.text_length] at hle
          omega
        · have hshort : (s ++ [terminator isUtc]).length < 8 := by
            rw [List.length_append, List.length_singleton]
            exact Nat.lt_succ_of_le (Nat.succ_le_succ (hdate rfl))
          rw [readDate_date hrest hr, dateTarget_short hshort]
          rfl
      · by_cases ht : v = tagTime
        · subst ht
          obtain ⟨time, rfl, hmin, hsec, hfrac, hpos, hwidth8⟩ := htime rfl
          obtain ⟨-, -, more, rfl⟩ := token_split hr
          have hliteral : b.rest = (Literal.mk (.time time) isUtc).text ++ more := by
            rw [hrest]
            simp [Literal.text, Body.tag, Body.text]
          refine ⟨fun l more' hl => ?_, fun hno => absurd hliteral (hno _ _)⟩
          obtain rfl : l = ⟨.time time, isUtc⟩ := by
            rw [hrest] at hl
            obtain ⟨htag, htail⟩ := literal_tail hl
            obtain ⟨time', hbody⟩ := Body.time_of_tag htag
            obtain ⟨htext, rfl⟩ := clean_unique time.clean l.body.clean htail
            rw [hbody] at htext
            obtain rfl : time = time' := Time.text_injective htext
            rw [← hbody]
          exact readDate_full_hour hliteral hr hmin hsec hfrac hpos hwidth8
        · refine decodes_of_malformed (fun l more hl => ?_) (readDate_other hrest ⟨hd, ht⟩)
          rw [hrest] at hl
          obtain ⟨htag, -⟩ := literal_tail hl
          cases hbody : l.body with
          | date d => exact hd (by rw [htag, hbody]; rfl)
          | dateTime d t => exact hd (by rw [htag, hbody]; rfl)
          | time t => exact ht (by rw [htag, hbody]; rfl)

/-- What the source decodes rightly with every calendar and into every target: the bytes that
are no literal because nothing ends them or they are too short for a date, and a full hour. -/
theorem decodes_iff (b : Buffer) : (∀ clock t nano, Decodes clock t nano b) ↔ Decodable b.rest := by
  constructor
  · intro hall
    cases hrest : b.rest with
    | nil => trivial
    | cons v r =>
      intro s isUtc hr
      constructor
      · rintro rfl
        exact date_too_short hrest hr fun t => hall monthClock t 0
      · rintro rfl
        exact time_full_hour hrest hr fun t => hall minuteClock t 0
  · intro h clock t nano
    exact decodes_of_decodable h clock t nano

/-- `D20200131;` is read without an error, and both targets keep what they had. -/
theorem date_not_stored :
    (∀ clock t nano, readDate clock t nano ⟨[68, 50, 48, 50, 48, 48, 49, 51, 49, 59], 0⟩ =
      .ok (true, (t, nano), ⟨[68, 50, 48, 50, 48, 48, 49, 51, 49, 59], 10⟩)) ∧
    ¬ ∀ (b : Buffer) (clock : Clock) (t nano : Int), Decodes clock t nano b := by
  refine ⟨fun clock t nano => rfl, fun hall => ?_⟩
  obtain ⟨d, hd⟩ : ∃ d : Date, d.text = [50, 48, 50, 48, 48, 49, 51, 49] :=
    ⟨⟨⟨[50, 48, 50, 48], rfl, List.all_eq_true.mp rfl⟩, ⟨[48, 49], rfl, List.all_eq_true.mp rfl⟩,
      ⟨[51, 49], rfl, List.all_eq_true.mp rfl⟩⟩, rfl⟩
  have hstored (t : Int) : t = monthClock.stamp false (Body.date d).tm := by
    have hread :=
      (hall ⟨[68, 50, 48, 50, 48, 48, 49, 51, 49, 59], 0⟩ monthClock t 0).literal
        ⟨.date d, false⟩ []
      (by simp only [Literal.text, Body.text, hd]; rfl)
    have hkept : readDate monthClock t 0 ⟨[68, 50, 48, 50, 48, 48, 49, 51, 49, 59], 0⟩ =
      .ok (true, (t, 0), ⟨[68, 50, 48, 50, 48, 48, 49, 51, 49, 59], 10⟩) := rfl
    rw [hkept, Except.ok.injEq, Prod.mk.injEq, Prod.mk.injEq, Prod.mk.injEq] at hread
    exact hread.2.1.1
  have hsame := (hstored 0).trans (hstored 1).symm
  cases hsame

end Decoding

end Ucorf.HproseDates
