import Ucorf.HproseProtocol
import Std.Data.ExtTreeMap

/-!
# The service of hprose and its stub

`Hprose_Service` reads the name and the arguments of a call off the request, runs the
function that is registered under the name, or under `*`, and writes the result;
`Hprose_ServiceStub` writes the one and reads the other. A function may change the state
of the process, and an answer says which functions were run for it.
-/
namespace Ucorf.HproseService

open Ucorf.Message
open Ucorf.HproseProtocol

def ascii (s : String) : Bytes := s.toList.map fun c => UInt8.ofNat c.toNat

@[reducible] def Vals : List Ty → Type
  | [] => Unit
  | t :: ts => t.Val × Vals ts

section Service

variable {σ : Type}

/-- `Callee<R(Args...)>`, which is defined for three arguments at most. The template
`RegisterFunction` compiles for one argument only, so the tables of a program hold such ones. -/
structure Callee (σ : Type) where
  args : List Ty
  arity : args.length ≤ 3
  result : Ty
  fn : Vals args → σ → result.Val × σ

theorem one_arity (t : Ty) : [t].length ≤ 3 := by simp

/-- One run of a registered function: the entry it is registered under and its arguments. -/
structure Invocation where
  entry : Bytes
  types : List Ty
  args : Vals types

structure Answer (σ : Type) where
  body : Bytes
  st : σ
  invoked : List Invocation

/-- The reads of `Call` one after the other, `none` once one fails; the arguments that a
failed read leaves are not used. -/
def readArgs : (ts : List Ty) → Buffer → Except StdException (Option (Vals ts) × Buffer)
  | [], reader => .ok (some (), reader)
  | t :: ts, reader =>
    match t.read t.default reader with
    | .error e => .error e
    | .ok (false, _, reader) => .ok (none, reader)
    | .ok (true, arg, reader) =>
      match readArgs ts reader with
      | .error e => .error e
      | .ok (args, reader) => .ok (args.map (arg, ·), reader)

def r2Hprose (t : Ty) (r : t.Val) : Bytes :=
  ((t.write r (Buffer.empty.write tagResult)).write tagEnd).s

def errorArguments : Bytes := ascii "Es10\"Error Args\"z"

def Callee.call (callee : Callee σ) (entry : Bytes) (reader : Buffer) (st : σ) :
    Except StdException (Answer σ) :=
  match readArgs callee.args reader with
  | .error e => .error e
  | .ok (none, _) => .ok ⟨errorArguments, st, []⟩
  | .ok (some args, _) =>
    let (result, st) := callee.fn args st
    .ok ⟨r2Hprose callee.result result, st, [⟨entry, callee.args, args⟩]⟩

abbrev Functions (σ : Type) := Std.ExtTreeMap Bytes (Callee σ)

def registerFunction (functions : Functions σ) (method : Bytes) (callee : Callee σ) :
    Bool × Functions σ :=
  if functions.contains method then (false, functions) else (true, functions.insert method callee)

def getFunctionList (functions : Functions σ) : Bytes :=
  let writer := Buffer.empty.write tagFunctions
  ((writeVector (fun name => writeString name false) functions.keys writer).write tagEnd).s

/-- `E`, a text and `z`. -/
def errorBody (text : Bytes) : Bytes :=
  ((writeString text false (Buffer.empty.write tagError)).write tagEnd).s

def anyMethod : Bytes := ascii "*"

def call (functions : Functions σ) (method : Bytes) (reader : Buffer) (st : σ) :
    Except StdException (Answer σ) :=
  match functions[method]? with
  | some callee => callee.call method reader st
  | none =>
    match functions[anyMethod]? with
    | some callee => callee.call anyMethod reader st
    | none => .ok ⟨errorBody (ascii "No Callee " ++ method), st, []⟩

def callMethod (functions : Functions σ) (requestData : Bytes) (st : σ) :
    Except StdException (Answer σ) :=
  match Buffer.get ⟨requestData, 0⟩ with
  | (flag, reader) =>
    if flag = some tagEnd then .ok ⟨getFunctionList functions, st, []⟩
    else if flag = some tagCall then
      match readString [] true reader with
      | .error e => .error e
      | .ok (false, _, _) => .ok ⟨errorArguments, st, []⟩
      | .ok (true, method, reader) => call functions method reader st
    else .ok ⟨errorBody (ascii "No support protocol tag."), st, []⟩

end Service

section Stub

def recursiveWrite : (ts : List Ty) → Vals ts → Buffer → Buffer
  | [], _, buf => buf
  | t :: ts, (a, args), buf => recursiveWrite ts args (t.write a buf)

/-- The request of `CallMethod`. -/
def requestBody (method : Bytes) (ts : List Ty) (args : Vals ts) : Bytes :=
  ((recursiveWrite ts args (writeString method true (Buffer.empty.write tagCall))).write tagEnd).s

/-- What `CallMethod` makes of the body of a response; the text of an error is only logged. -/
def readResponse (r : Ty) (ec : BoostEc) (body : Bytes) : Except StdException (r.Val × BoostEc) :=
  match Buffer.get ⟨body, 0⟩ with
  | (flag, reader) =>
    if flag = some tagResult then
      match r.read r.default reader with
      | .error e => .error e
      | .ok (true, result, _) => .ok (result, ec)
      | .ok (false, _, _) => .ok (r.default, ec)
    else if flag = some tagError then .ok (r.default, makeUcorfErrorCode .ecLogicError)
    else .ok (r.default, makeUcorfErrorCode .ecCallError)

/-- `transport` is `c_->Call`, which gives an error code and the body of the response. -/
def stubCallMethod (transport : Bytes → BoostEc × Bytes) (r : Ty) (method : Bytes) (ts : List Ty)
    (args : Vals ts) :
    Except StdException (r.Val × BoostEc) :=
  let (ec, body) := transport (requestBody method ts args)
  if ec.failed then .ok (r.default, ec) else readResponse r ec body

end Stub

end Ucorf.HproseService
