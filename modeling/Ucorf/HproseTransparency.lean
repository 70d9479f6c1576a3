import Ucorf.HproseRoundTrip
import Ucorf.HproseService

/-!
# A call through hprose is a call of the function

The request holds the name and then the arguments, each of them read back to its last
byte, so the function of that name is run on the values that the stub was given, and its
result is read back in the same way.
-/
namespace Ucorf.HproseTransparency

open Ucorf.Message
open Ucorf.Decimal
open Ucorf.HproseProtocol
open Ucorf.HproseRoundTrip
open Ucorf.HproseService

section Names

/-- No byte follows an ASCII character. -/
theorem followBytes_ascii {c : UInt8} (hc : c.toNat < 128) : followBytes c = 0 := by
  have htop : c.toNat.testBit 7 = false := Nat.testBit_lt_two_pow hc
  simp [followBytes, List.range, List.range.loop, htop]

/-- ASCII bytes are characters one by one. -/
theorem countChars_ascii {str : Bytes} (h : ∀ c ∈ str, c.toNat < 128) :
    countChars 0 str = str.length := by
  induction str with
  | nil => rfl
  | cons c str ih =>
    have hc : followBytes c = 0 := followBytes_ascii (h c (by simp))
    rw [countChars, hc, ih fun d hd => h d (by simp [hd]), List.length_cons]

/-- A name of ASCII characters has as many characters as bytes. -/
theorem stringLength_ascii {str : Bytes} (h : ∀ c ∈ str, c.toNat < 128)
    (hlen : str.length < 2 ^ 31) :
    stringLength str true = str.length := by
  have hcount : stringLength str true = narrow (countChars 0 str) := by
    simp [stringLength, utf8CharCount]
  rw [hcount, countChars_ascii h]
  exact narrow_of_int32 (by omega) (by omega)

/-- So a name is read back, with or without the flag. -/
theorem name_decodes {method : Bytes} (h : ∀ c ∈ method, c.toNat < 128)
    (hlen : method.length < 2 ^ 31) (flag : Bool) :
    Decodes (fun target b => readString target flag b) (stringCode method true) method :=
  string_decodes flag hlen (stringLength_ascii h hlen)

end Names

section Bodies

def argsCode : (ts : List Ty) → Vals ts → Bytes
  | [], _ => []
  | t :: ts, (a, args) => tyCode t a ++ argsCode ts args

/-- Every string and every vector in the arguments is shorter than 2^31. -/
def ShortArgs : (ts : List Ty) → Vals ts → Prop
  | [], _ => True
  | t :: ts, (a, args) => Short t a ∧ ShortArgs ts args

theorem recursiveWrite_eq (ts : List Ty) (args : Vals ts) (buf : Buffer) :
    recursiveWrite ts args buf = buf.writeBytes (argsCode ts args) := by
  induction ts generalizing buf with
  | nil => simp [recursiveWrite, argsCode, Buffer.writeBytes]
  | cons t ts ih =>
    obtain ⟨a, args⟩ := args
    rw [recursiveWrite, ih, ty_write, writeBytes_writeBytes, argsCode]

/-- The bytes of a request. -/
theorem requestBody_eq (method : Bytes) (ts : List Ty) (args : Vals ts) :
    requestBody method ts args = tagCall ::
      (stringCode method true ++ (argsCode ts args ++ [tagEnd])) := by
  unfold requestBody
  rw [recursiveWrite_eq, writeString_eq]
  simp [Buffer.write, Buffer.writeBytes, Buffer.empty]

/-- The bytes of a result. -/
theorem r2Hprose_eq (t : Ty) (r : t.Val) :
    r2Hprose t r = tagResult :: (tyCode t r ++ [tagEnd]) := by
  unfold r2Hprose
  rw [ty_write]
  simp [Buffer.write, Buffer.writeBytes, Buffer.empty]

theorem errorBody_cons (text : Bytes) : ∃ tail, errorBody text = tagError :: tail := by
  unfold errorBody
  rw [writeString_eq]
  simp [Buffer.write, Buffer.writeBytes, Buffer.empty]

end Bodies

section Reading

/-- The arguments are read back one after the other. -/
theorem readArgs_append (ts : List Ty) (hts : ∀ t ∈ ts, Plain t) (args : Vals ts)
    (hargs : ShortArgs ts args)
    {reader : Buffer} {r : Bytes} (hrest : reader.rest = argsCode ts args ++ r) :
    readArgs ts reader = .ok (some args, reader.skip (argsCode ts args).length) := by
  induction ts generalizing reader with
  | nil => rfl
  | cons t ts ih =>
    obtain ⟨a, args⟩ := args
    obtain ⟨ha, hargs⟩ := hargs
    rw [argsCode, List.append_assoc] at hrest
    have hread : t.read t.default reader = .ok (true, a, reader.skip (tyCode t a).length) :=
      ty_decodes t (hts t (by simp)) a ha t.default reader _ hrest
    have htail := ih (fun u hu => hts u (by simp [hu])) args hargs (Buffer.rest_skip_append hrest)
    simp only [readArgs, hread, htail, Option.map_some, Buffer.skip_skip, argsCode,
      List.length_append]

variable {σ : Type} (functions : Functions σ) {method : Bytes}
    (hascii : ∀ c ∈ method, c.toNat < 128)
  (hlen : method.length < 2 ^ 31)

include hascii hlen

/-- The name is read and what follows it is left. -/
theorem name_read (tail : Bytes) : ∃ reader : Buffer, reader.rest = tail ∧
    readString [] true ⟨tagCall :: (stringCode method true ++ tail), 1⟩ =
      .ok (true, method, reader) := by
  have hname : Buffer.rest ⟨tagCall :: (stringCode method true ++ tail), 1⟩ =
      stringCode method true ++ tail := rfl
  exact ⟨_, Buffer.rest_skip_append hname, name_decodes hascii hlen true [] _ _ hname⟩

/-- A request is a call of the name that it holds. -/
theorem callMethod_call (tail : Bytes) (st : σ) : ∃ reader : Buffer, reader.rest = tail ∧
    callMethod functions (tagCall :: (stringCode method true ++ tail)) st =
      call functions method reader st := by
  obtain ⟨reader, hrest, hread⟩ := name_read hascii hlen tail
  refine ⟨reader, hrest, ?_⟩
  have htag : tagCall ≠ tagEnd := by decide
  have hget : Buffer.get ⟨tagCall :: (stringCode method true ++ tail), 0⟩ =
    (some tagCall, ⟨tagCall :: (stringCode method true ++ tail), 1⟩) := rfl
  simp only [callMethod, hget, Option.some.injEq, htag, if_false, if_true, hread]

/-- The request of a stub is a call with its arguments left to read. -/
theorem callMethod_requestBody (ts : List Ty) (args : Vals ts) (st : σ) :
    ∃ reader : Buffer, reader.rest = argsCode ts args ++ [tagEnd] ∧
      callMethod functions (requestBody method ts args) st = call functions method reader st := by
  rw [requestBody_eq]
  exact callMethod_call functions hascii hlen _ st

end Reading

section Response

/-- A result is read back. -/
theorem readResponse_result {r : Ty} (hr : Plain r) {v : r.Val} (hv : Short r v) (ec : BoostEc) :
    readResponse r ec (r2Hprose r v) = .ok (v, ec) := by
  rw [r2Hprose_eq]
  generalize hbody : tagResult :: (tyCode r v ++ [tagEnd]) = body
  have hrest : Buffer.rest ⟨body, 0⟩ = tagResult :: (tyCode r v ++ [tagEnd]) := by
    rw [← hbody]
    rfl
  have hread := ty_decodes r hr v hv r.default _ _ (Buffer.rest_skip_cons hrest)
  simp only [readResponse, Buffer.get_cons hrest, if_true, hread]

/-- An error gives the default and its code. -/
theorem readResponse_error (r : Ty) (ec : BoostEc) (text : Bytes) :
    readResponse r ec (errorBody text) = .ok (r.default, makeUcorfErrorCode .ecLogicError) := by
  obtain ⟨tail, htail⟩ := errorBody_cons text
  have hrest : Buffer.rest ⟨errorBody text, 0⟩ = tagError :: tail := htail
  have htag : tagError ≠ tagResult := by decide
  simp only [readResponse, Buffer.get_cons hrest, Option.some.injEq, htag, if_false, if_true]

theorem stubCallMethod_ok {transport : Bytes → BoostEc × Bytes} {r : Ty} {method body : Bytes}
    {ts : List Ty}
    {args : Vals ts} (h : transport (requestBody method ts args) = (BoostEc.ok, body)) :
    stubCallMethod transport r method ts args = readResponse r BoostEc.ok body := by
  have hok : BoostEc.ok.failed = false := by decide
  simp only [stubCallMethod, h, hok, Bool.false_eq_true, if_false]

end Response

section Calls

variable {σ : Type}

/-- The call runs the function of `method` and no other, once and on the arguments, and
the stub gets its result. -/
def Transparent (functions : Functions σ) (method : Bytes) (callee : Callee σ)
    (args : Vals callee.args) (st : σ) :
    Prop :=
  ∃ body, callMethod functions (requestBody method callee.args args) st =
      .ok ⟨body, (callee.fn args st).2, [⟨method, callee.args, args⟩]⟩ ∧
    ∀ transport, transport (requestBody method callee.args args) = (BoostEc.ok, body) →
      stubCallMethod transport callee.result method callee.args args =
        .ok ((callee.fn args st).1, BoostEc.ok)

/-- No function is run for the call, and the stub reports it. -/
def Refused (functions : Functions σ) (method : Bytes) (ts : List Ty) (args : Vals ts)
    (st : σ) : Prop :=
  ∃ body, callMethod functions (requestBody method ts args) st = .ok ⟨body, st, []⟩ ∧
    ∀ (r : Ty) (transport : Bytes → BoostEc × Bytes),
      transport (requestBody method ts args) = (BoostEc.ok, body) →
      stubCallMethod transport r method ts args = .ok (r.default, makeUcorfErrorCode .ecLogicError)

/-- A function under its own name gives its result to the stub. -/
theorem transparent_of_entry {functions : Functions σ} {method : Bytes}
    (hascii : ∀ c ∈ method, c.toNat < 128)
    (hlen : method.length < 2 ^ 31) {callee : Callee σ} (hentry : functions[method]? = some callee)
    (htypes : ∀ t ∈ callee.args, Plain t) (hresult : Plain callee.result)
    {args : Vals callee.args} {st : σ}
    (hargs : ShortArgs callee.args args) (hshort : Short callee.result (callee.fn args st).1) :
    Transparent functions method callee args st := by
  obtain ⟨reader, hrest, hcall⟩ := callMethod_requestBody functions hascii hlen callee.args args st
  have hargsRead := readArgs_append callee.args htypes args hargs hrest
  refine ⟨r2Hprose callee.result (callee.fn args st).1, ?_, ?_⟩
  · rw [hcall]
    simp only [call, hentry, Callee.call, hargsRead]
  · intro transport htransport
    rw [stubCallMethod_ok htransport]
    exact readResponse_result hresult hshort BoostEc.ok

/-- Without an entry the stub gets an error. -/
theorem refused_of_no_entry {functions : Functions σ} {method : Bytes}
    (hascii : ∀ c ∈ method, c.toNat < 128)
    (hlen : method.length < 2 ^ 31) (hentry : functions[method]? = none)
    (hany : functions[anyMethod]? = none)
    (ts : List Ty) (args : Vals ts) (st : σ) : Refused functions method ts args st := by
  obtain ⟨reader, -, hcall⟩ := callMethod_requestBody functions hascii hlen ts args st
  refine ⟨errorBody (ascii "No Callee " ++ method), ?_, ?_⟩
  · rw [hcall]
    simp only [call, hentry, hany]
  · intro r transport htransport
    rw [stubCallMethod_ok htransport]
    exact readResponse_error r BoostEc.ok _

/-- Strings and vectors of 2^31 elements and more have no length that an `int` holds. -/
theorem call_transparent (functions : Functions σ) (method : Bytes)
    (hascii : ∀ c ∈ method, c.toNat < 128)
    (hlen : method.length < 2 ^ 31) :
    (∀ (callee : Callee σ) (args : Vals callee.args) (st : σ), functions[method]? = some callee →
      (∀ t ∈ callee.args, Plain t) → Plain callee.result → ShortArgs callee.args args →
      Short callee.result (callee.fn args st).1 → Transparent functions method callee args st) ∧
    (functions[method]? = none → functions[anyMethod]? = none →
      ∀ (ts : List Ty) (args : Vals ts) (st : σ), Refused functions method ts args st) := by
  constructor
  · intro callee args st hentry htypes hresult hargs hshort
    exact transparent_of_entry hascii hlen hentry htypes hresult hargs hshort
  · intro hentry hany ts args st
    exact refused_of_no_entry hascii hlen hentry hany ts args st

/-- The registered function of the two runs below. -/
def echo : Callee Unit := ⟨[.elem .string], by decide, .elem .string, fun args st => (args.1, st)⟩

def echoes : Functions Unit := (registerFunction ∅ (ascii "echo") echo).2

theorem echoes_echo : echoes[ascii "echo"]? = some echo := by
  simp [echoes, registerFunction]

theorem echoes_other {method : Bytes} (h : method ≠ ascii "echo") : echoes[method]? = none := by
  have hne : ¬ ascii "echo" = method := fun heq => h heq.symm
  simp [echoes, registerFunction, hne]

theorem all_ascii {str : Bytes} (h : (str.all fun c => decide (c.toNat < 128)) = true) :
    ∀ c ∈ str, c.toNat < 128 := by
  intro c hc
  exact of_decide_eq_true (List.all_eq_true.mp h c hc)

theorem call_transparent_echo : Transparent echoes (ascii "echo") echo ([34, 0], ()) () ∧
    Refused echoes (ascii "ping") [.elem .string] ([34, 0], ()) () := by
  constructor
  · have h := (call_transparent echoes (ascii "echo") (all_ascii (by decide)) (by decide)).1
    have hargs : ShortArgs echo.args ([34, 0], ()) :=
      ⟨show [34, 0].length < 2 ^ 31 by decide, trivial⟩
    exact h echo ([34, 0], ())
      () echoes_echo (by simp [echo, Plain, PlainElem]) trivial hargs hargs.1
  · have h := (call_transparent echoes (ascii "ping") (all_ascii (by decide)) (by decide)).2
    exact h (echoes_other (by decide)) (echoes_other (by decide)) _ _ _

/-- A length that is negative as an `int` is refused by the read. -/
theorem string_refused {str : Bytes} (flag : Bool) (hne : str ≠ []) {len : Int}
    (hlen : stringLength str false = len)
    (hlow : -2 ^ 31 ≤ len) (hneg : len ≤ 0) (target : Bytes) {b : Buffer} {r : Bytes}
    (hrest : b.rest = stringCode str false ++ r) :
    ∃ b', readString target flag b = .ok (false, target, b') := by
  have hempty : ¬ str.isEmpty = true := fun h => hne (List.isEmpty_iff.mp h)
  have hquote : isDigit tagQuote = false := by decide
  have hatoi : atoi (ofInt len ++ [tagQuote]) = len := atoi_ofInt32 hquote [] hlow (by omega)
  rw [stringCode, if_neg hempty, hlen] at hrest
  have hcode : b.rest = tagBytes :: (ofInt len ++ tagQuote :: (str ++ tagQuote :: r)) := by
    rw [hrest]
    simp
  obtain ⟨huntil, -⟩ := readUntil_number hquote (by decide) (by decide) hcode
  have htag : tagBytes ≠ tagEmpty ∧ ¬ (tagBytes ≠ tagString ∧ tagBytes ≠ tagBytes) := by decide
  have hnonempty : (ofInt len ++ [tagQuote]).isEmpty = false := by simp
  simp only [readString, readString', Buffer.get_cons hcode, if_false, htag, huntil, hnonempty,
    hatoi, hneg, if_true]
  exact ⟨_, rfl⟩

theorem echo_refuses {str : Bytes} (hne : str ≠ []) {len : Int}
    (hlen : stringLength str false = len)
    (hlow : -2 ^ 31 ≤ len) (hneg : len ≤ 0) :
    ¬ Transparent echoes (ascii "echo") echo (str, ()) () := by
  rintro ⟨body, hbody, -⟩
  have hascii : ∀ c ∈ ascii "echo", c.toNat < 128 := all_ascii (by decide)
  obtain ⟨reader, hrest, hcall⟩ :=
    callMethod_requestBody echoes hascii (by decide) echo.args (str, ()) ()
  have hcode : argsCode echo.args (str, ()) ++ [tagEnd] = stringCode str false ++ [tagEnd] := by
    simp [echo, argsCode, tyCode, elemCode]
  rw [hcode] at hrest
  obtain ⟨b', hread⟩ := string_refused false hne hlen hlow hneg [] hrest
  have hargs : readArgs echo.args reader = .ok (none, b') := by
    have hread' : Ty.read (.elem .string) (Ty.default (.elem .string)) reader =
        .ok (false, [], b') := hread
    simp only [echo, readArgs, hread']
  rw [hcall] at hbody
  simp only [call, echoes_echo, Callee.call, hargs] at hbody
  injection hbody with hbody
  injection hbody with _ _ hinvoked
  cases hinvoked

/-- The length of a string of 2^31 bytes is written as -2147483648. -/
theorem echo_not_transparent : echoes[ascii "echo"]? = some echo ∧
    ¬ Transparent echoes (ascii "echo") echo (List.replicate (2 ^ 31) 97, ()) () := by
  have hlen : (List.replicate (2 ^ 31) (97 : UInt8)).length = 2 ^ 31 := List.length_replicate
  have hne : List.replicate (2 ^ 31) (97 : UInt8) ≠ [] := by
    intro hnil
    rw [hnil] at hlen
    cases hlen
  have hwritten : stringLength (List.replicate (2 ^ 31) 97) false = -2 ^ 31 := by
    have hnarrow : narrow (2 ^ 31 : Nat) = -2 ^ 31 := by decide
    rw [stringLength_false, hlen, hnarrow]
  exact ⟨echoes_echo, echo_refuses hne hwritten (by decide) (by decide)⟩

end Calls

end Ucorf.HproseTransparency
