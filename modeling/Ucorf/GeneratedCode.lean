import Ucorf.Lexing
import Ucorf.ProtocGenRpc
import Ucorf.ServerReplies

/-!
# What the generated code does

The text of `*.rpc.cc` is read as the functions that it defines, and their bodies as
statements, as far as the plugin writes such. A word for a type names a message of the
namespace that the functions are in. They run with the classes of the library: `Call` is what
`Pb_Service` calls by the number of a method, and `Pb_ServiceStub` hands the names to the
client. What a compiler refuses has no meaning here.
-/
namespace Ucorf.GeneratedCode

open Ucorf.Lexing
open Ucorf.Message
open Ucorf.ProtocGenRpc
open Ucorf.ServerReplies

section Statements

inductive Expr where
  | name (w : Text)
  | text (t : Text)
  | invoke (method inputT outputT : Text) -- of `request` and `response` after their casts
  | callMethod (method : Text) -- of `request` and `response`
  | getDescriptor (service : Text)
  deriving DecidableEq, Repr

inductive Stmt where
  | switch
  | case (n : Nat)
  | default
  | close
  | ret (e : Expr)
  | makeShared (outputT : Text)
  | call (method : Text)
  | report
  deriving DecidableEq, Repr

/-- What follows `return`. -/
def expr : List Token → Option (Expr × List Token)
  | .text t :: ts => (skip ";" ts).map fun ts => (.text t, ts)
  | .word w :: .mark ';' :: ts => some (.name w, ts)
  | .word w :: .mark '(' :: .text m :: ts =>
    if w = "CallMethod".toList then (skip ", request, response);" ts).map fun ts =>
    (.callMethod m, ts) else none
  | .word w :: .mark '(' :: .mark '(' :: ts => do
    let (i, ts) ← word ts
    let ts ← skip "&)request, (" ts
    let (o, ts) ← word ts
    let ts ← skip "&)response);" ts
    return (.invoke w i o, ts)
  | .word w :: .mark ':' :: ts => (skip ":GetDescriptor();" ts).map fun ts => (.getDescriptor w, ts)
  | _ => none

/-- A line of a body. The two types of `std::make_shared` are one. -/
def stmt : List Token → Option (Stmt × List Token)
  | .mark '\x7d' :: ts => some (.close, ts)
  | .word w :: ts =>
    if w = "return".toList then (expr ts).map fun r => (.ret r.1, r.2)
    else if w = "switch".toList then (skip "(method_idx) \x7b" ts).map fun ts => (.switch, ts)
    else if w = "case".toList then do
      let (d, ts) ← word ts
      let n ← numeral d
      let ts ← skip ":" ts
      return (.case n, ts)
    else if w = "default".toList then (skip ":" ts).map fun ts => (.default, ts)
    else if w = "std".toList then do
      let ts ← skip "::shared_ptr<" ts
      let (o, ts) ← word ts
      let ts ← skip "> response = std::make_shared<" ts
      let (p, ts) ← word ts
      let ts ← skip ">();" ts
      if o = p then return (.makeShared o, ts) else none
    else if w = "boost_ec".toList then do
      let ts ← skip "e = CallMethod(" ts
      match ts with
      | .text m :: ts => (skip ", request, response.get());" ts).map fun ts => (.call m, ts)
      | _ => none
    else if w = "if".toList then
      (skip "(ec) \x7b if (e) *ec = e; else ec->clear(); \x7d" ts).map fun ts => (.report, ts)
    else none
  | _ => none

/-- A body, with a bound on the number of its statements. -/
def stmts : Nat → List Token → Option (List Stmt)
  | _, [] => some []
  | 0, _ => none
  | n + 1, ts => do
    let (s, ts) ← stmt ts
    let ss ← stmts n ts
    return s :: ss

end Statements

section Functions

/-- A function: its declaration and its body. -/
abbrev Definition := List Token × List Token

/-- `*.rpc.cc`: the package of its namespace and the functions in it. -/
structure Code where
  package : Text
  functions : List Definition

/-- The message that a word names in that namespace, by its full name. -/
def Code.classNamed (code : Code) (w : Text) : String :=
    String.ofList ('.' :: (code.package ++ '.' :: w))

def definitions (text : Text) : Option Code := do
  let ts ← skip "namespace" (tokens text)
  let (package, ts) ← word ts
  let ts ← skip "\x7b" ts
  return ⟨package, blocks ts⟩

/-- The body of the function that is declared so. -/
def bodyOf (code : Code) (declaration : List Token) : Option (List Stmt) := do
  let d ← code.functions.find? fun d => d.1 = declaration
  stmts d.2.length d.2

/-- `Ucorf*`. -/
def serviceClass (service : Text) : Token := .word ("Ucorf".toList ++ service)

/-- `Ucorf*Stub`. -/
def stubClass (service : Text) : Token := .word ("Ucorf".toList ++ service ++ "Stub".toList)

/-- `std::string *::name()`. -/
def nameDeclaration (cls : Token) : List Token := code "std::string" ++ cls :: code "::name()"

def callDeclaration (service : Text) : List Token :=
  code "bool" ++ serviceClass service ::
    code "::Call(int method_idx, Message & request, Message & response)"

def descriptorDeclaration (service : Text) : List Token :=
  code "const ServiceDescriptor*" ++ serviceClass service :: code "::GetDescriptor()"

/-- The method of the stub that makes the response. -/
def sharedDeclaration (service method inputT outputT : Text) : List Token :=
  code "std::shared_ptr<" ++ .word outputT ::
    (code ">" ++ stubClass service :: (code "::" ++ .word method ::
    (code "(" ++ .word inputT :: code "& request, boost_ec * ec)")))

/-- The one that is given the response. -/
def errorDeclaration (service method inputT outputT : Text) : List Token :=
  code "boost_ec" ++ stubClass service :: (code "::" ++ .word method :: (code "(" ++ .word inputT ::
    (code "& request," ++ .word outputT :: code "* response)")))

end Functions

section Service

/-- From a label on, until the function returns. -/
def straight : List Stmt → Option Expr
  | .ret e :: _ => some e
  | .case _ :: ss => straight ss
  | .default :: ss => straight ss
  | .close :: ss => straight ss
  | _ => none

/-- What is behind the label of the number. -/
def caseOf (methodIdx : Int) : List Stmt → Option (List Stmt)
  | [] => none
  | .close :: _ => none
  | .case n :: ss => if (n : Int) = methodIdx then some ss else caseOf methodIdx ss
  | _ :: ss => caseOf methodIdx ss

def defaultOf : List Stmt → Option (List Stmt)
  | [] => none
  | .close :: _ => none
  | .default :: ss => some ss
  | _ :: ss => defaultOf ss

/-- What a function of a service returns. -/
def returned (methodIdx : Int) : List Stmt → Option Expr
  | .switch :: ss => ((caseOf methodIdx ss).or (defaultOf ss)).bind straight
  | ss => straight ss

/-- `name()` of a service or of a stub. -/
def nameOf (code : Code) (cls : Token) : Option Text := do
  match returned 0 (← bodyOf code (nameDeclaration cls)) with
  | some (.text t) => return t
  | _ => none

/-- The class whose descriptor `GetDescriptor` returns. -/
def descriptorOf (code : Code) (service : Text) : Option Text := do
  match returned 0 (← bodyOf code (descriptorDeclaration service)) with
  | some (.getDescriptor s) => return s
  | _ => none

variable {M : Type}

/-- The methods of the class that the user derives: by the name of the method and the full names of
its types. Each of them fills the response or returns false. -/
abbrev Handlers (M : Type) := Text → String → String → M → M → Option M

/-- `Call` of the generated class. -/
def call (code : Code) (service : Text) (handlers : Handlers M) (methodIdx : Int)
    (request response : M) : Option (Option M) := do
  match returned methodIdx (← bodyOf code (callDeclaration service)) with
  | some (.invoke m i o) =>
    return handlers m (code.classNamed i) (code.classNamed o) request response
  | some (.name w) => if w = "false".toList then return none else none
  | _ => none

/-- The bytes of a name. -/
def bytesOf (t : Text) : Bytes := t.map fun c => UInt8.ofNat c.toNat

/-- `FindMethodByName`: the number of a method is its position, and its prototypes are the new
messages of its types. -/
def findMethodByName (new : String → M) (descriptor : ServiceDescriptorProto) (method : Bytes) :
    Option (MethodDescriptor M) := do
  let index ← descriptor.method.findIdx? fun m => bytesOf m.name.toList = method
  let m ← descriptor.method[index]?
  return ⟨index, new m.inputType, new m.outputType⟩

/-- The code of the service does what `srv` does. -/
structure Implements (code : Code) (d : FileDescriptorProto)
    (new : String → M) (handlers : Handlers M) (service : Text) (srv : PbService M) : Prop where
  name : (nameOf code (serviceClass service)).map bytesOf = some srv.name
  descriptor : ∃ cls descriptor, descriptorOf code service = some cls ∧
    d.service.find? (fun s => s.name.toList = cls) = some descriptor ∧
    srv.findMethodByName = findMethodByName new descriptor
  call : ∀ (index : Nat) request response, call code service handlers index request response =
    some (srv.call index request response)

end Service

section Stub

variable {M : Type}

/-- `Call` of the client: the names, the request and the response, if there is one. -/
abbrev ClientCall (M : Type) := Bytes → Bytes → M → Option M → BoostEc × Option M

/-- The variables of a method of a stub. -/
structure Locals (M : Type) where
  response : Option M
  e : BoostEc
  ec : Option BoostEc

/-- What such a method leaves behind: the error that it returns, the response, and what `ec` points
to. -/
structure Result (M : Type) where
  error : Option BoostEc
  response : Option M
  ec : Option BoostEc

/-- `Pb_ServiceStub::CallMethod` on a stub of the name. -/
def stubCallMethod (client : ClientCall M) (name : Text) (method : Text)
    (request : M) (response : Option M) : BoostEc × Option M :=
  client (bytesOf name) (bytesOf method) request response

def runStub (code : Code) (new : String → M) (client : ClientCall M) (name : Text)
    (request : M) (l : Locals M) : List Stmt → Option (Result M)
  | .makeShared o :: ss =>
    runStub code new client name request { l with response := some (new (code.classNamed o)) } ss
  | .call m :: ss =>
    let r := stubCallMethod client name m request l.response
    runStub code new client name request { l with e := r.1, response := r.2 } ss
  | .report :: ss =>
    runStub code new client name request
      { l with ec := l.ec.map fun _ => if l.e.failed then l.e else .ok } ss
  | .ret (.name w) :: _ => if w = "response".toList then some ⟨none, l.response, l.ec⟩ else none
  | .ret (.callMethod m) :: _ =>
    let r := stubCallMethod client name m request l.response
    some ⟨some r.1, r.2, l.ec⟩
  | _ => none

/-- A method of a stub, given its declaration. -/
def stubMethod (code : Code) (service : Text) (declaration : List Token) (new : String → M)
    (client : ClientCall M) (request : M) (l : Locals M) : Option (Result M) := do
  let name ← nameOf code (stubClass service)
  runStub code new client name request l (← bodyOf code declaration)

end Stub

end Ucorf.GeneratedCode
