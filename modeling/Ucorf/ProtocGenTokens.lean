import Ucorf.GeneratedCode

/-!
# The tokens of the generated code

Each line that the plugin writes has its tokens, and the tokens of `*.rpc.cc` are those of its
functions, one after the other in the namespace of the package. A statement is read back from
its tokens.
-/
namespace Ucorf.ProtocGenTokens

open Ucorf.GeneratedCode
open Ucorf.Lexing
open Ucorf.ProtocGenRpc

section Statements

/-- What follows `return`, up to the end of the statement. -/
def exprTokens : Expr → List Token
  | .name w => .word w :: code ";"
  | .text t => .text t :: code ";"
  | .invoke m i o =>
      .word m :: (code "((" ++ .word i :: (code "&)request, (" ++ .word o :: code "&)response);"))
  | .callMethod m => code "CallMethod(" ++ .text m :: code ", request, response);"
  | .getDescriptor s => .word s :: code "::GetDescriptor();"

def stmtTokens : Stmt → List Token
  | .switch => code "switch (method_idx) \x7b"
  | .case n => code "case" ++ .word n.repr.toList :: code ":"
  | .default => code "default:"
  | .close => code "\x7d"
  | .ret e => code "return" ++ exprTokens e
  | .makeShared o =>
    code "std::shared_ptr<" ++ .word o ::
      (code "> response = std::make_shared<" ++ .word o :: code ">();")
  | .call m => code "boost_ec e = CallMethod(" ++ .text m :: code ", request, response.get());"
  | .report => code "if (ec) \x7b if (e) *ec = e; else ec->clear(); \x7d"

variable (ts : List Token)

/-- What follows `return` is read back, and what comes behind it is left. -/
theorem expr_tokens (e : Expr) : expr (exprTokens e ++ ts) = some (e, ts) := by
  cases e with
  | name w => rfl
  | text t => rfl
  | invoke m i o => rfl
  | callMethod m => rfl
  | getDescriptor s => rfl

/-- A statement is read back, and what comes behind it is left. -/
theorem stmt_tokens (s : Stmt) : stmt (stmtTokens s ++ ts) = some (s, ts) := by
  cases s with
  | switch => rfl
  | case n =>
    have hread : stmt (stmtTokens (.case n) ++ ts) = (numeral n.repr.toList).bind fun n =>
      some (.case n, ts) := rfl
    rw [hread, numeral_repr]
    rfl
  | default => rfl
  | close => rfl
  | ret e =>
    have hread : stmt (stmtTokens (.ret e) ++ ts) = (expr (exprTokens e ++ ts)).map fun r =>
      (.ret r.1, r.2) := rfl
    rw [hread, expr_tokens]
    rfl
  | makeShared o =>
    have hread : stmt (stmtTokens (.makeShared o) ++ ts) = if o = o
        then some (.makeShared o, ts) else none := rfl
    rw [hread, if_pos rfl]
  | call m => rfl
  | report => rfl

/-- A body is read back, whatever its statements are. -/
theorem stmts_tokens {n : Nat} {ss : List Stmt} (h : ss.length ≤ n) :
    stmts n (ss.flatMap stmtTokens) = some ss := by
  induction ss generalizing n with
  | nil =>
    cases n with
    | zero => rfl
    | succ n => rfl
  | cons s ss ih =>
    cases n with
    | zero => exact absurd h (Nat.not_succ_le_zero _)
    | succ n =>
      have hread := stmt_tokens (ss.flatMap stmtTokens) s
      rw [List.flatMap_cons]
      cases hts : stmtTokens s ++ ss.flatMap stmtTokens with
      | nil =>
        rw [hts] at hread
        cases hread
      | cons t ts =>
        rw [hts] at hread
        simp only [stmts, hread, Option.bind_eq_bind, Option.bind_some,
          ih (Nat.le_of_succ_le_succ h)]
        rfl

end Statements

section Lines

/-- The tokens of a line. -/
def Line (info : String) (ts : List Token) : Prop :=
    lex .between (info.toList ++ ['\n']) = (ts, .between)

variable {s m i o : String}

theorem line_empty : Line "" [] := rfl

theorem line_open : Line "\x7b" (code "\x7b") := rfl

theorem line_close : Line "\x7d" (code "\x7d") := rfl

/-- The brace that ends the switch is a statement of the body. -/
theorem line_endSwitch : Line "\x7d" (stmtTokens .close) := rfl

theorem line_switch : Line "switch (method_idx) \x7b" (stmtTokens .switch) := rfl

theorem line_default : Line "default:" (stmtTokens .default) := rfl

theorem line_false : Line "return false;" (stmtTokens (.ret (.name "false".toList))) := rfl

theorem line_response : Line "return response;" (stmtTokens (.ret (.name "response".toList))) := rfl

theorem line_constructs : Line ": Pb_ServiceStub(c) \x7b\x7d"
    (code ": Pb_ServiceStub(c) \x7b\x7d") := rfl

theorem line_if : Line "if (ec) \x7b" (code "if (ec) \x7b") := rfl

theorem line_assign : Line "if (e) *ec = e;" (code "if (e) *ec = e;") := rfl

theorem line_clear : Line "else ec->clear();" (code "else ec->clear();") := rfl

/-- The number of a case is one word. -/
theorem line_case (n : Nat) : Line s!"case {n}:" (stmtTokens (.case n)) := by
  simp (disch := rfl) only [Line, toString, String.toList_append, List.append_assoc, toList_literal]
  exact lex_trans rfl (lex_trans (lex_word (isWord_repr n)) (lex_trans rfl rfl))

/-- A case calls the method of the user with the casts to its two types. -/
theorem line_invoke (hm : IsWord m.toList) (hi : IsWord i.toList) (ho : IsWord o.toList) :
    Line s!"return {m}(({i} &)request, ({o} &)response);"
      (stmtTokens (.ret (.invoke m.toList i.toList o.toList))) := by
  simp (disch := rfl) only [Line, toString, String.toList_append, List.append_assoc, toList_literal]
  exact lex_trans rfl
    (lex_trans (lex_word hm) (lex_trans rfl (lex_trans (lex_word hi) (lex_trans rfl
    (lex_trans (lex_word ho) (lex_trans rfl rfl))))))

/-- A name is returned as a quoted text. -/
theorem line_text (hs : IsWord s.toList) :
    Line s!"return \"{s}\";" (stmtTokens (.ret (.text s.toList))) := by
  simp (disch := rfl) only [Line, toString, String.toList_append, List.append_assoc, toList_literal]
  exact lex_trans rfl (lex_trans (lex_text [] hs.unquoted) (lex_trans rfl rfl))

theorem line_getDescriptor (hs : IsWord s.toList) :
    Line s!"return {s}::GetDescriptor();" (stmtTokens (.ret (.getDescriptor s.toList))) := by
  simp (disch := rfl) only [Line, toString, String.toList_append, List.append_assoc, toList_literal]
  exact lex_trans rfl (lex_trans (lex_word hs) (lex_trans rfl rfl))

/-- The response of a stub is made with the word for its type. -/
theorem line_makeShared (ho : IsWord o.toList) :
    Line s!"std::shared_ptr<{o}> response = std::make_shared<{o}>();"
      (stmtTokens (.makeShared o.toList)) := by
  simp (disch := rfl) only [Line, toString, String.toList_append, List.append_assoc, toList_literal]
  exact lex_trans rfl
    (lex_trans (lex_word ho) (lex_trans rfl (lex_trans (lex_word ho) (lex_trans rfl rfl))))

/-- The first method of a stub calls with the response that it has made. -/
theorem line_call (hm : IsWord m.toList) :
    Line s!"boost_ec e = CallMethod(\"{m}\", request, response.get());"
      (stmtTokens (.call m.toList)) := by
  simp (disch := rfl) only [Line, toString, String.toList_append, List.append_assoc, toList_literal]
  exact lex_trans rfl (lex_trans (lex_text [] hm.unquoted) (lex_trans rfl rfl))

/-- The second one hands on the response that it was given. -/
theorem line_callMethod (hm : IsWord m.toList) :
    Line s!"return CallMethod(\"{m}\", request, response);"
      (stmtTokens (.ret (.callMethod m.toList))) := by
  simp (disch := rfl) only [Line, toString, String.toList_append, List.append_assoc, toList_literal]
  exact lex_eq (lex_trans rfl (lex_trans (lex_text [] hm.unquoted) (lex_trans rfl rfl))) rfl

end Lines

section Declarations

variable {s m i o : String}

/-- The constructor of a stub, whose block is empty. -/
def constructorDeclaration (service : Text) : List Token :=
  stubClass service :: (code "::" ++ stubClass service :: code "(Client * c) : Pb_ServiceStub(c)")

/-- `Stub` belongs to the word that it ends. -/
theorem lex_stub {v r : Text} {ts : List Token} {mode : Mode}
    (h : lex (.word (v ++ "Stub".toList)) r = (ts, mode)) :
    lex (.word v) ('S' :: 't' :: 'u' :: 'b' :: r) = (ts, mode) := by
  have hstub : IsWord "Stub".toList := by decide
  exact lex_trans (lex_wordChars v hstub.2) h

/-- `name()` is declared for the service class. -/
theorem line_name (hs : IsWord s.toList) :
    Line s!"std::string Ucorf{s}::name()" (nameDeclaration (serviceClass s.toList)) := by
  simp (disch := rfl) only [Line, toString, String.toList_append, List.append_assoc, toList_literal]
  exact lex_trans rfl (lex_trans (lex_wordChars _ hs.2) (lex_trans rfl rfl))

theorem line_stubName (hs : IsWord s.toList) :
    Line s!"std::string Ucorf{s}Stub::name()" (nameDeclaration (stubClass s.toList)) := by
  simp (disch := rfl) only [Line, toString, String.toList_append, List.append_assoc, toList_literal]
  exact lex_trans rfl (lex_trans (lex_wordChars _ hs.2) (lex_trans (lex_stub rfl) rfl))

/-- `Call` is declared with the types of its base class. -/
theorem line_callDeclaration (hs : IsWord s.toList) :
    Line s!"bool Ucorf{s}::Call(int method_idx, Message & request, Message & response)"
      (callDeclaration s.toList) := by
  simp (disch := rfl) only [Line, toString, String.toList_append, List.append_assoc, toList_literal]
  exact lex_trans rfl (lex_trans (lex_wordChars _ hs.2) (lex_trans rfl rfl))

theorem line_descriptor (hs : IsWord s.toList) :
    Line s!"const ServiceDescriptor* Ucorf{s}::GetDescriptor()"
      (descriptorDeclaration s.toList) := by
  simp (disch := rfl) only [Line, toString, String.toList_append, List.append_assoc, toList_literal]
  exact lex_trans rfl (lex_trans (lex_wordChars _ hs.2) (lex_trans rfl rfl))

/-- Its first line, without the constructor of the base. -/
def constructorLine (service : Text) : List Token :=
  stubClass service :: (code "::" ++ stubClass service :: code "(Client * c)")

/-- The constructor of the stub has an empty body, on the next line. -/
theorem constructor_append (service : Text) (ts : List Token) :
    constructorLine service ++ (code ": Pb_ServiceStub(c) \x7b\x7d" ++ ts) =
      constructorDeclaration service ++ .mark '\x7b' :: .mark '\x7d' :: ts := rfl

theorem line_constructor (hs : IsWord s.toList) :
    Line s!"Ucorf{s}Stub::Ucorf{s}Stub(Client * c)" (constructorLine s.toList) := by
  simp (disch := rfl) only [Line, toString, String.toList_append, List.append_assoc, toList_literal]
  exact lex_eq (lex_trans rfl (lex_trans (lex_wordChars _ hs.2) (lex_trans (lex_stub rfl)
    (lex_trans (lex_wordChars _ hs.2) (lex_trans (lex_stub rfl) rfl))))) rfl

/-- The declaration of the method that makes the response. -/
theorem line_shared (hs : IsWord s.toList) (hm : IsWord m.toList) (hi : IsWord i.toList)
    (ho : IsWord o.toList) :
    Line s!"std::shared_ptr<{o}> Ucorf{s}Stub::{m}({i} & request, boost_ec * ec)"
      (sharedDeclaration s.toList m.toList i.toList o.toList) := by
  simp (disch := rfl) only [Line, toString, String.toList_append, List.append_assoc, toList_literal]
  exact lex_eq (lex_trans rfl
    (lex_trans (lex_word ho) (lex_trans rfl (lex_trans (lex_wordChars _ hs.2)
    (lex_trans (lex_stub rfl) (lex_trans (lex_word hm) (lex_trans rfl (lex_trans (lex_word hi)
      (lex_trans rfl rfl))))))))) rfl

/-- The declaration of the method that is given the response. -/
theorem line_error (hs : IsWord s.toList) (hm : IsWord m.toList) (hi : IsWord i.toList)
    (ho : IsWord o.toList) : Line s!"boost_ec Ucorf{s}Stub::{m}({i} & request, {o} * response)"
      (errorDeclaration s.toList m.toList i.toList o.toList) := by
  simp (disch := rfl) only [Line, toString, String.toList_append, List.append_assoc, toList_literal]
  exact lex_eq (lex_trans rfl (lex_trans (lex_wordChars _ hs.2)
    (lex_trans (lex_stub rfl) (lex_trans (lex_word hm)
    (lex_trans rfl (lex_trans (lex_word hi)
      (lex_trans rfl (lex_trans (lex_word ho) (lex_trans rfl rfl))))))))) rfl

end Declarations

section Writers

variable {c c' : C} {ts us : List Token} {info : String}

def written (c : C) : List Token × Mode := lex .between c.c

/-- From one writer to another one: the tokens that are written between two ends of lines. -/
def Emits (c c' : C) (ts : List Token) : Prop :=
  ∀ before, written c = (before, .between) → written c' = (before ++ ts, .between)

/-- A writer that wrote nothing has emitted no tokens. -/
theorem Emits.refl (c : C) : Emits c c [] := by
  intro before h
  rw [List.append_nil, h]

/-- Tokens come in the order in which they are written. -/
theorem Emits.trans {c'' : C} (h : Emits c c' ts) (h' : Emits c' c'' us) :
    Emits c c'' (ts ++ us) := by
  intro before hbefore
  rw [h' _ (h before hbefore), List.append_assoc]

/-- Indentation is no token. -/
theorem lex_indent (n : Nat) :
    lex .between (List.replicate n indentContent).flatten = ([], .between) := by
  apply lex_blanks
  intro c hc
  obtain ⟨l, hl, hcl⟩ := List.mem_flatten.mp hc
  rw [List.eq_of_mem_replicate hl] at hcl
  have hblank : ∀ c ∈ indentContent, c = ' ' := by simp [indentContent]
  exact hblank c hcl

/-- A line adds its tokens, whatever its indentation is. -/
theorem Emits.outline (h : Emits c c' ts) (hl : Line info us) :
    Emits c (c'.outline info) (ts ++ us) := by
  intro before hbefore
  have hc' := h before hbefore
  rw [C.outline]
  split
  · rename_i hempty
    subst hempty
    obtain rfl : us = [] := congrArg Prod.fst hl.symm
    exact (lex_trans hc' line_empty).trans (by simp)
  · have hline := lex_trans (lex_indent c'.idt.toNat) hl
    rw [List.nil_append, ← List.append_assoc] at hline
    exact (lex_trans hc' hline).trans (by rw [List.append_assoc])

theorem Emits.it (h : Emits c c' ts) : Emits c c'.it ts := h

theorem Emits.itEnd (h : Emits c c' ts) : Emits c c'.itEnd ts := h

/-- What is written without the end of its line goes on there. -/
theorem Emits.out (h : Emits c c' ts) (hl : lex .between (info.toList ++ ['\n']) = (us, .between)) :
    Emits c ((c'.out info).outline "") (ts ++ us) := by
  intro before hbefore
  have hline := lex_trans (h before hbefore) hl
  rw [← List.append_assoc] at hline
  exact hline.trans (by rw [List.append_assoc])

/-- A loop emits the tokens of its rounds. -/
theorem Emits.foldl {α : Type} {f : C → α → C} {text : α → List Token} {xs : List α}
    (h : ∀ x ∈ xs, ∀ c, Emits c (f c x) (text x)) (c : C) :
    Emits c (xs.foldl f c) (xs.flatMap text) := by
  induction xs generalizing c with
  | nil => exact Emits.refl c
  | cons x xs ih =>
    have htail := ih (fun y hy => h y (List.mem_cons_of_mem x hy)) (f c x)
    exact (h x List.mem_cons_self c).trans htail

end Writers

section Functions

/-- The functions of a service and of its stub. -/
inductive Member where
  | name
  | call
  | descriptor
  | constructor
  | stubName
  | shared (m : MethodDescriptorProto)
  | error (m : MethodDescriptorProto)

/-- The word that the plugin writes for the type of the request, the last part of its name. -/
def inputT (m : MethodDescriptorProto) : Text := (lastPart m.inputType).toList

def outputT (m : MethodDescriptorProto) : Text := (lastPart m.outputType).toList

def declaration (srv : ServiceDescriptorProto) : Member → List Token
  | .name => nameDeclaration (serviceClass srv.name.toList)
  | .call => callDeclaration srv.name.toList
  | .descriptor => descriptorDeclaration srv.name.toList
  | .constructor => constructorDeclaration srv.name.toList
  | .stubName => nameDeclaration (stubClass srv.name.toList)
  | .shared m => sharedDeclaration srv.name.toList m.name.toList (inputT m) (outputT m)
  | .error m => errorDeclaration srv.name.toList m.name.toList (inputT m) (outputT m)

/-- The cases of the switch, from a number on. -/
def cases : Nat → List MethodDescriptorProto → List Stmt
  | _, [] => []
  | i, m :: ms => .case i :: .ret (.invoke m.name.toList (inputT m) (outputT m)) :: cases (i + 1) ms

def body (srv : ServiceDescriptorProto) : Member → List Stmt
  | .name => [.ret (.text srv.name.toList)]
  | .call => .switch :: (cases 0 srv.method ++ [.default, .ret (.name "false".toList), .close])
  | .descriptor => [.ret (.getDescriptor srv.name.toList)]
  | .constructor => []
  | .stubName => [.ret (.text srv.name.toList)]
  | .shared m => [.makeShared (outputT m), .call m.name.toList, .report,
      .ret (.name "response".toList)]
  | .error m => [.ret (.callMethod m.name.toList)]

def members (srv : ServiceDescriptorProto) : List Member :=
  [.name, .call, .descriptor, .constructor, .stubName] ++ srv.method.flatMap fun m =>
  [.shared m, .error m]

def function (srv : ServiceDescriptorProto) (k : Member) : Definition :=
  (declaration srv k, (body srv k).flatMap stmtTokens)

structure MethodNamed (m : MethodDescriptorProto) : Prop where
  name : IsWord m.name.toList
  input : IsWord (inputT m)
  output : IsWord (outputT m)

structure ServiceNamed (srv : ServiceDescriptorProto) : Prop where
  name : IsWord srv.name.toList
  method : ∀ m ∈ srv.method, MethodNamed m

variable {srv : ServiceDescriptorProto} {m : MethodDescriptorProto}

theorem Emits.eq {c c' : C} {ts us : List Token} (h : Emits c c' ts)
    (heq : ts = us) : Emits c c' us := heq ▸ h

/-- One round of the loop over the methods writes a case. -/
theorem emits_callMethod (hm : MethodNamed m) (c : C) (i : Nat) :
    Emits c (callMethod (c, i) m).1
      (stmtTokens (.case i) ++ stmtTokens (.ret (.invoke m.name.toList (inputT m) (outputT m)))) :=
  ((Emits.refl c).outline (line_case i)).it.outline (line_invoke hm.name hm.input hm.output)
  |>.itEnd

/-- The loop writes the cases, numbered from where it began. -/
theorem emits_callMethods {ms : List MethodDescriptorProto}
    (h : ∀ m ∈ ms, MethodNamed m) (c : C) (i : Nat) :
    Emits c (ms.foldl callMethod (c, i)).1 ((cases i ms).flatMap stmtTokens) := by
  induction ms generalizing c i with
  | nil => exact Emits.refl c
  | cons m ms ih =>
    have htail := ih (fun m' hm' => h m' (List.mem_cons_of_mem m hm'))
      (callMethod (c, i) m).1 (i + 1)
    have hhead := emits_callMethod (h m List.mem_cons_self) c i
    exact (hhead.trans htail).eq (List.append_assoc _ _ _)

theorem code_open : code "\x7b" = [.mark '\x7b'] := rfl

theorem code_close : code "\x7d" = [.mark '\x7d'] := rfl

/-- The lines of the statement. -/
theorem report_append (ts : List Token) : code "if (ec) \x7b" ++ (code "if (e) *ec = e;" ++
    (code "else ec->clear();" ++ .mark '\x7d' :: ts)) = stmtTokens .report ++ ts := rfl

/-- The two methods of a stub are two functions. -/
theorem emits_defineStub (hs : IsWord srv.name.toList) (hm : MethodNamed m) (c : C) :
    Emits c (defineStub srv.name c m)
      (blockTokens (function srv (.shared m)) ++ blockTokens (function srv (.error m))) := by
  have hshared := (Emits.refl c).outline (line_shared hs hm.name hm.input hm.output)
    |>.outline line_open |>.it
    |>.outline (line_makeShared hm.output) |>.outline (line_call hm.name)
    |>.outline line_if |>.it |>.outline line_assign |>.outline line_clear |>.itEnd
    |>.outline line_close |>.outline line_empty
    |>.outline line_response |>.itEnd |>.outline line_close |>.outline line_empty
  have herror := hshared.outline (line_error hs hm.name hm.input hm.output)
    |>.outline line_open |>.it
    |>.outline (line_callMethod hm.name) |>.itEnd |>.outline line_close |>.outline line_empty
  refine herror.eq ?_
  simp only [function, blockTokens, declaration, body, inputT, outputT, code_open,
    code_close, report_append,
    List.flatMap_cons, List.flatMap_nil, List.append_assoc, List.nil_append,
      List.append_nil, List.cons_append]

/-- All functions of a service and of its stub, in the order of `members`. -/
theorem emits_defineService (h : ServiceNamed srv) (c : C) :
    Emits c (defineService c srv)
      ((members srv).flatMap fun k => blockTokens (function srv k)) := by
  have hswitch := (Emits.refl c).outline (line_name h.name) |>.outline line_open |>.it
    |>.outline (line_text h.name)
    |>.itEnd |>.outline line_close |>.outline line_empty
    |>.outline (line_callDeclaration h.name) |>.outline line_open |>.it |>.outline line_switch |>.it
  have hcases := hswitch.trans (emits_callMethods h.method _ 0)
  have hrest := hcases.outline line_default |>.it |>.outline line_false |>.itEnd
    |>.itEnd |>.outline line_endSwitch
    |>.itEnd |>.outline line_close |>.outline line_empty
    |>.outline (line_descriptor h.name) |>.outline line_open |>.it
    |>.outline (line_getDescriptor h.name)
    |>.itEnd |>.outline line_close |>.outline line_empty
    |>.outline (line_constructor h.name) |>.it |>.outline line_constructs
    |>.itEnd |>.outline line_empty
    |>.outline (line_stubName h.name) |>.outline line_open |>.it |>.outline (line_text h.name)
    |>.itEnd |>.outline line_close |>.outline line_empty
  have hstubs := hrest.trans
    (Emits.foldl (fun m hm c => emits_defineStub h.name (h.method m hm) c) _)
  refine hstubs.eq ?_
  simp only [members, function, blockTokens, declaration, body, code_open,
    code_close, constructor_append,
    List.flatMap_cons, List.flatMap_nil, List.flatMap_append, List.flatMap_assoc, List.append_assoc,
    List.nil_append, List.append_nil, List.cons_append]

end Functions

section File

variable {oriFilename : String} {d : FileDescriptorProto}

/-- The names of the file. The package is one word, and the name of the file stays in its line. -/
structure FileNamed (oriFilename : String) (d : FileDescriptorProto) : Prop where
  file : ∀ c ∈ oriFilename.toList, c ≠ '\n'
  package : IsWord d.package.toList
  service : ∀ srv ∈ d.service, ServiceNamed srv

def functions (d : FileDescriptorProto) : List Definition :=
  d.service.flatMap fun srv => (members srv).map (function srv)

/-- A directive has no tokens. -/
theorem line_include (h : ∀ c ∈ oriFilename.toList, c ≠ '\n') :
    Line s!"#include \"{oriFilename}.rpc.h\"" [] := by
  simp (disch := rfl) only [Line, toString, String.toList_append, List.append_assoc, toList_literal]
  exact lex_trans rfl (lex_trans (lex_directive h) (lex_trans rfl rfl))

theorem line_namespace {p : String} (hp : IsWord p.toList) :
    Line s!"namespace {p}" (code "namespace" ++ [.word p.toList]) := by
  simp (disch := rfl) only [Line, toString, String.toList_append, List.append_assoc, toList_literal]
  exact lex_trans rfl (lex_trans (lex_word hp) rfl)

theorem IsWord.string_ne {s : String} (h : IsWord s.toList) : s ≠ "" := by
  rintro rfl
  exact h.1 rfl

/-- The namespace opens on the line of its name. -/
theorem Emits.openPackage {c c' : C} {ts : List Token} {p : String} (h : Emits c c' ts)
    (hp : IsWord p.toList) :
    Emits c (openPackage c' p) (ts ++ (code "namespace" ++ [.word p.toList]) ++ code "\x7b") := by
  rw [ProtocGenRpc.openPackage, if_neg (IsWord.string_ne hp)]
  exact (h.out (line_namespace hp)).outline line_open |>.it

theorem Emits.closePackage {c c' : C} {ts : List Token} {p : String} (h : Emits c c' ts)
    (hp : IsWord p.toList) : Emits c (closePackage c' p) (ts ++ code "\x7d") := by
  rw [ProtocGenRpc.closePackage, if_neg (IsWord.string_ne hp)]
  exact h.itEnd.out line_close

/-- `*.rpc.cc` is the namespace of the package around its functions. -/
theorem tokens_source (h : FileNamed oriFilename d) :
    tokens (source oriFilename d) =
      code "namespace" ++ .word d.package.toList ::
        (code "\x7b" ++ ((functions d).flatMap blockTokens ++ code "\x7d")) := by
  have hopen := ((Emits.refl .init).outline (line_include h.file)).outline line_empty
    |>.openPackage h.package
  have hbody := hopen.trans
    (Emits.foldl (fun srv hsrv c => emits_defineService (h.service srv hsrv) c) _)
  have hwritten : written (writeSource oriFilename d) = _ := hbody.closePackage h.package [] rfl
  have hsource : lex .between (source oriFilename d) = written (writeSource oriFilename d) := rfl
  rw [tokens, hsource, hwritten]
  simp [functions, Mode.finish, List.flatMap_assoc, List.flatMap_map]

end File

end Ucorf.ProtocGenTokens
