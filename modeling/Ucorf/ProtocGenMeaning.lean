import Mathlib.Data.List.Nodup
import Ucorf.ProtocGenTokens

/-!
# The generated code means what the descriptor says

The functions of `*.rpc.cc` are found by their declarations as long as no two of them are
declared alike, and the words in them name the descriptor's types as long as these are
messages of the package and no closer scope has the words. A service then has the methods of
its descriptor, and its stub calls each of them by that name.
-/
namespace Ucorf.ProtocGenMeaning

open Ucorf.GeneratedCode
open Ucorf.Lexing
open Ucorf.Message
open Ucorf.ProtocGenRpc
open Ucorf.ProtocGenTokens
open Ucorf.Server
open Ucorf.ServerReplies

section Definitions

variable {oriFilename : String} {d : FileDescriptorProto} {srv : ServiceDescriptorProto}

/-- No declaration has a brace. -/
theorem plain_declaration (k : Member) : Plain (declaration srv k) := by
  cases k with
  | name => rfl
  | call => rfl
  | descriptor => rfl
  | constructor => rfl
  | stubName => rfl
  | shared m => rfl
  | error m => rfl

/-- A `return` is inside of a block. -/
theorem inside_ret (e : Expr) : Inside (stmtTokens (.ret e)) := by
  have hplain : Plain (stmtTokens (.ret e)) := by
    cases e with
    | name w => rfl
    | text t => rfl
    | invoke m i o => rfl
    | callMethod m => rfl
    | getDescriptor s => rfl
  exact hplain.inside

/-- The cases are inside of the block of the switch. -/
theorem inside_cases (i : Nat) (ms : List MethodDescriptorProto) :
    Inside ((cases i ms).flatMap stmtTokens) := by
  induction ms generalizing i with
  | nil => exact Plain.inside rfl
  | cons m ms ih =>
    have hcase : Inside (stmtTokens (.case i)) := Plain.inside rfl
    exact hcase.append ((inside_ret _).append (ih (i + 1)))

/-- Every body is inside of the block of its function. -/
theorem inside_body (k : Member) : Inside ((body srv k).flatMap stmtTokens) := by
  cases k with
  | name => exact (inside_ret _).append (Plain.inside rfl)
  | call =>
    have hhead : Inside (code "switch (method_idx)") := Plain.inside rfl
    have htail : Inside (stmtTokens .default ++ stmtTokens (.ret (.name "false".toList))) :=
      Plain.inside rfl
    have hswitch := hhead.append ((inside_cases 0 srv.method).append htail).nest
    have htokens : (body srv .call).flatMap stmtTokens = code "switch (method_idx)" ++
        .mark '\x7b' :: (((cases 0 srv.method).flatMap stmtTokens ++
          (stmtTokens .default ++ stmtTokens (.ret (.name "false".toList)))) ++
            [.mark '\x7d']) := by
      have hopen : stmtTokens .switch = code "switch (method_idx)" ++ [.mark '\x7b'] := rfl
      have hclose : stmtTokens .close = [.mark '\x7d'] := rfl
      simp [body, hopen, hclose]
    rw [htokens]
    exact hswitch
  | descriptor => exact (inside_ret _).append (Plain.inside rfl)
  | constructor => exact Plain.inside rfl
  | stubName => exact (inside_ret _).append (Plain.inside rfl)
  | shared m =>
    have hmake : Inside
      (stmtTokens (.makeShared (outputT m)) ++ stmtTokens (.call m.name.toList)) := Plain.inside rfl
    have hif : Inside (code "if (ec)") := Plain.inside rfl
    have hblock : Inside (code "if (e) *ec = e; else ec->clear();") := Plain.inside rfl
    have hall := hmake.append
      ((hif.append hblock.nest).append (inside_ret (.name "response".toList)))
    exact hall
  | error m => exact (inside_ret _).append (Plain.inside rfl)

/-- What the text of the file is read as. -/
abbrev sourceCode (d : FileDescriptorProto) : Code := ⟨d.package.toList, functions d⟩

/-- The text is read back as the functions that were written, under its package. -/
theorem definitions_source (h : FileNamed oriFilename d) :
    definitions (source oriFilename d) = some (sourceCode d) := by
  have hblocks : blocks ((functions d).flatMap blockTokens ++ .mark '\x7d' :: []) =
      functions d := by
    refine blocks_flatMap (fun b hb => ?_) []
    obtain ⟨srv, hsrv, hk⟩ := List.mem_flatMap.mp hb
    obtain ⟨k, hkm, rfl⟩ := List.mem_map.mp hk
    exact ⟨plain_declaration k, inside_body k⟩
  rw [definitions, tokens_source h, skip_code]
  simp only [word, Option.bind_eq_bind, Option.bind_some, skip_code, code_close, hblocks]
  rfl

end Definitions

section Lookup

variable {d : FileDescriptorProto} {srv srv' : ServiceDescriptorProto} {k k' : Member}

/-- No two functions of the file are declared alike. -/
structure Declared (d : FileDescriptorProto) : Prop where
  services : (d.service.map ServiceDescriptorProto.name).Nodup
  stubs : ∀ srv ∈ d.service, ∀ srv' ∈ d.service, srv.name.toList ≠ srv'.name.toList ++ "Stub".toList
  methods : ∀ srv ∈ d.service, (srv.method.map MethodDescriptorProto.name).Nodup

inductive Kind where
  | name
  | call
  | descriptor
  | constructor
  | shared
  | error

/-- The class of a function, what it is and the method that it is for. -/
def key (srv : ServiceDescriptorProto) : Member → Token × Kind × Text
  | .name => (serviceClass srv.name.toList, .name, [])
  | .call => (serviceClass srv.name.toList, .call, [])
  | .descriptor => (serviceClass srv.name.toList, .descriptor, [])
  | .constructor => (stubClass srv.name.toList, .constructor, [])
  | .stubName => (stubClass srv.name.toList, .name, [])
  | .shared m => (stubClass srv.name.toList, .shared, m.name.toList)
  | .error m => (stubClass srv.name.toList, .error, m.name.toList)

/-- They are seen in the declaration. -/
def signature : List Token → Option (Token × Kind × Text)
  | .word r :: t₁ :: _ :: t₃ :: ts =>
    if r = "bool".toList then some (t₁, .call, [])
    else if r = "const".toList then some (t₃, .descriptor, [])
    else if r = "std".toList then
      match ts with
      | .mark _ :: _ :: _ :: cls :: _ :: _ :: .word m :: _ => some (cls, .shared, m)
      | cls :: _ => some (cls, .name, [])
      | [] => none
    else if r = "boost_ec".toList then
      match ts with
      | .word m :: _ => some (t₁, .error, m)
      | _ => none
    else some (.word r, .constructor, [])
  | _ => none

/-- The declaration shows what the function is. -/
theorem signature_declaration (srv : ServiceDescriptorProto) (k : Member) :
    signature (declaration srv k) = some (key srv k) := by
  cases k with
  | name => rfl
  | call => rfl
  | descriptor => rfl
  | constructor => rfl
  | stubName => rfl
  | shared m => rfl
  | error m => rfl

theorem serviceClass_inj {s t : Text} (h : serviceClass s = serviceClass t) : s = t :=
  List.append_cancel_left (Token.word.inj h)

theorem stubClass_inj {s t : Text} (h : stubClass s = stubClass t) : s = t :=
  List.append_cancel_left (List.append_cancel_right (Token.word.inj h))

/-- A service whose name ends in `Stub` may be taken for a stub. -/
theorem serviceClass_eq_stubClass {s t : Text} (h : serviceClass s = stubClass t) :
    s = t ++ "Stub".toList := by
  have hword := Token.word.inj h
  rw [List.append_assoc] at hword
  exact List.append_cancel_left hword

/-- A name is that of one service. -/
theorem Declared.service_eq (h : Declared d) (hs : srv ∈ d.service) (hs' : srv' ∈ d.service)
    (hname : srv.name.toList = srv'.name.toList) : srv = srv' :=
  List.inj_on_of_nodup_map h.services hs hs' (String.toList_inj.mp hname)

/-- A name is that of one method of its service. -/
theorem Declared.method_eq {m m' : MethodDescriptorProto} (h : Declared d) (hs : srv ∈ d.service)
    (hm : m ∈ srv.method) (hm' : m' ∈ srv.method) (hname : m.name.toList = m'.name.toList) :
    m = m' :=
  List.inj_on_of_nodup_map (h.methods srv hs) hm hm' (String.toList_inj.mp hname)

/-- The class of a function tells its service. -/
theorem service_of_key (h : Declared d) (hs : srv ∈ d.service) (hs' : srv' ∈ d.service)
    (hkey : (key srv k).1 = (key srv' k').1) : srv = srv' := by
  have hclass (k : Member) (srv : ServiceDescriptorProto) :
      (key srv k).1 = serviceClass srv.name.toList ∨ (key srv k).1 = stubClass srv.name.toList := by
    cases k <;> simp [key]
  apply h.service_eq hs hs'
  rcases hclass k srv with hk | hk <;> rcases hclass k' srv' with hk' | hk' <;> rw [hk, hk'] at hkey
  · exact serviceClass_inj hkey
  · exact absurd (serviceClass_eq_stubClass hkey) (h.stubs srv hs srv' hs')
  · exact absurd (serviceClass_eq_stubClass hkey.symm) (h.stubs srv' hs' srv hs)
  · exact stubClass_inj hkey

theorem method_of_members {m : MethodDescriptorProto}
    (h : .shared m ∈ members srv ∨ .error m ∈ members srv) : m ∈ srv.method := by
  simpa [members] using h

/-- What is declared alike is one function. -/
theorem declaration_inj (h : Declared d) (hs : srv ∈ d.service) (hs' : srv' ∈ d.service)
    (hk : k ∈ members srv) (hk' : k' ∈ members srv')
    (heq : declaration srv k = declaration srv' k') : function srv k = function srv' k' := by
  have hkey : key srv k = key srv' k' := by
    have hsig := congrArg signature heq
    rw [signature_declaration, signature_declaration] at hsig
    exact Option.some.inj hsig
  obtain rfl := service_of_key h hs hs' (congrArg Prod.fst hkey)
  have hself : srv.name.toList ≠ srv.name.toList ++ "Stub".toList := h.stubs srv hs srv hs
  have hclass : serviceClass srv.name.toList ≠ stubClass srv.name.toList :=
    fun hc => hself (serviceClass_eq_stubClass hc)
  cases k with
  | name =>
    cases k' with
    | name => rfl
    | stubName => exact absurd (congrArg Prod.fst hkey) hclass
    | _ => cases congrArg (fun x => x.2.1) hkey
  | call =>
    cases k' with
    | call => rfl
    | _ => cases congrArg (fun x => x.2.1) hkey
  | descriptor =>
    cases k' with
    | descriptor => rfl
    | _ => cases congrArg (fun x => x.2.1) hkey
  | constructor =>
    cases k' with
    | constructor => rfl
    | _ => cases congrArg (fun x => x.2.1) hkey
  | stubName =>
    cases k' with
    | name => exact absurd (congrArg Prod.fst hkey).symm hclass
    | stubName => rfl
    | _ => cases congrArg (fun x => x.2.1) hkey
  | shared m =>
    cases k' with
    | shared m' =>
      have hname : m.name.toList = m'.name.toList := congrArg (fun x => x.2.2) hkey
      rw [h.method_eq hs (method_of_members (.inl hk)) (method_of_members (.inl hk')) hname]
    | _ => cases congrArg (fun x => x.2.1) hkey
  | error m =>
    cases k' with
    | error m' =>
      have hname : m.name.toList = m'.name.toList := congrArg (fun x => x.2.2) hkey
      rw [h.method_eq hs (method_of_members (.inr hk)) (method_of_members (.inr hk')) hname]
    | _ => cases congrArg (fun x => x.2.1) hkey

/-- A search gives the only element that it can give. -/
theorem find?_unique {α : Type} {p : α → Bool} {l : List α} {a : α} (ha : a ∈ l) (hp : p a = true)
    (h : ∀ b ∈ l, p b = true → b = a) : l.find? p = some a := by
  cases hf : l.find? p with
  | none => exact absurd hp (List.find?_eq_none.mp hf a ha)
  | some b => rw [h b (List.mem_of_find?_eq_some hf) (List.find?_some hf)]

/-- Every statement has a token, so the bound on the statements is enough. -/
theorem length_stmtTokens (ss : List Stmt) : ss.length ≤ (ss.flatMap stmtTokens).length := by
  induction ss with
  | nil => exact Nat.le_refl _
  | cons s ss ih =>
    have hpos : 0 < (stmtTokens s).length := by
      cases s <;> exact Nat.zero_lt_succ _
    rw [List.flatMap_cons, List.length_append, List.length_cons]
    omega

/-- A function is found by its declaration, and its body is what was written. -/
theorem bodyOf_declaration (h : Declared d) (hs : srv ∈ d.service) (hk : k ∈ members srv) :
    bodyOf (sourceCode d) (declaration srv k) = some (body srv k) := by
  have hmem : function srv k ∈ functions d := List.mem_flatMap.mpr ⟨srv, hs, List.mem_map_of_mem hk⟩
  have hfind : (functions d).find? (fun f => f.1 = declaration srv k) = some (function srv k) := by
    refine find?_unique hmem (decide_eq_true rfl) ?_
    intro f hf hp
    obtain ⟨srv', hs', hf'⟩ := List.mem_flatMap.mp hf
    obtain ⟨k', hk', rfl⟩ := List.mem_map.mp hf'
    exact declaration_inj h hs' hs hk' hk (of_decide_eq_true hp)
  rw [bodyOf, hfind]
  exact stmts_tokens (length_stmtTokens (body srv k))

end Lookup

section Scopes

/-- The words of C++, then those that a generated function finds before the package's own: its
variables, the members of the classes that its class derives from, and the names of the libraries
that the text uses. -/
def taken : List String :=
  ["alignas", "alignof", "and", "and_eq", "asm", "auto", "bitand", "bitor", "bool", "break", "case",
    "catch", "char", "char16_t", "char32_t", "class", "compl", "const", "const_cast", "constexpr",
    "continue", "decltype", "default", "delete", "do", "double", "dynamic_cast", "else", "enum",
    "explicit", "export", "extern", "false", "float", "for", "friend", "goto", "if", "inline",
    "int", "long", "mutable", "namespace", "new", "noexcept", "not", "not_eq", "nullptr",
    "operator", "or", "or_eq", "private", "protected", "public", "register", "reinterpret_cast",
    "return", "short", "signed", "sizeof", "static", "static_assert", "static_cast", "struct",
    "switch", "template", "this", "thread_local", "throw", "true", "try", "typedef", "typeid",
    "typename", "union", "unsigned", "using", "virtual", "void", "volatile", "wchar_t", "while",
    "xor", "xor_eq", "method_idx", "request", "response", "e", "ec", "c", "name", "Call",
    "CallMethod", "GetDescriptor", "GetRequestPrototype", "GetResponsePrototype", "descriptor",
    "Stub", "c_", "ChannelOwnership", "STUB_OWNS_CHANNEL", "STUB_DOESNT_OWN_CHANNEL", "std",
    "google", "ucorf", "Message", "ServiceDescriptor", "MethodDescriptor", "Service", "Client",
    "boost_ec", "IService", "IServiceStub", "Pb_Service", "Pb_ServiceStub"]

/-- An identifier that is left to the user. -/
def Free (w : String) : Prop := (∀ c ∈ w.toList.head?, c.isDigit = false) ∧ w ∉ taken

def fullName (package w : String) : String := "." ++ package ++ "." ++ w

/-- A message at the top level of the package. -/
def TopLevel (package type : String) : Prop := ∃ w, IsWord w.toList ∧
    Free w ∧ type = fullName package w

/-- The classes that the plugin and protobuf make for the services beside those of their names. -/
def generated (d : FileDescriptorProto) : List String :=
  d.service.flatMap fun srv =>
    ["Ucorf" ++ srv.name, "Ucorf" ++ srv.name ++ "Stub", srv.name ++ "_Stub"]

def classes (d : FileDescriptorProto) : List String :=
  generated d ++ d.service.map ServiceDescriptorProto.name

/-- What makes a compiler accept the code, and each word for a type name the type that the
descriptor has: the types are messages of the package, and no name of the file stands in the way of
another one. -/
structure Compiles (d : FileDescriptorProto) : Prop extends Declared d where
  package : Free d.package
  names : ∀ srv ∈ d.service, Free srv.name ∧ srv.name ∉ generated d ∧
    ∀ m ∈ srv.method, Free m.name ∧ m.name ∉ classes d
  types : ∀ srv ∈ d.service, ∀ m ∈ srv.method, TopLevel d.package m.inputType ∧
    TopLevel d.package m.outputType
  apart : ∀ srv ∈ d.service, ∀ w ∈ classes d ++ srv.method.map MethodDescriptorProto.name,
    ∀ m ∈ srv.method, m.inputType ≠ fullName d.package w ∧ m.outputType ≠ fullName d.package w

variable {d : FileDescriptorProto} {srv : ServiceDescriptorProto} {m : MethodDescriptorProto}

/-- A word behind the last dot is the last part. -/
theorem lastPart_append {xs : Text} {w : String} (h : IsWord w.toList) :
    lastPart (String.ofList (xs ++ '.' :: w.toList)) = w := by
  have hdot : ∀ c ∈ w.toList.reverse, decide (c ≠ '.') = true := by
    intro c hc
    refine decide_eq_true fun hd => ?_
    have hword : isWordChar c = true := h.2 c (List.mem_reverse.mp hc)
    rw [hd] at hword
    exact absurd hword (by decide)
  rw [lastPart, String.toList_ofList, List.rtakeWhile, List.reverse_append,
    List.reverse_cons, List.append_assoc,
    List.takeWhile_append_of_pos hdot]
  simp

/-- In the namespace of the package the last part of the name of its message names it again. -/
theorem classNamed_lastPart {type : String} (h : TopLevel d.package type) :
    (sourceCode d).classNamed (lastPart type).toList = type := by
  obtain ⟨w, hw, -, rfl⟩ := h
  have hname : fullName d.package w =
      String.ofList (('.' :: d.package.toList) ++ '.' :: w.toList) := by
    rw [← String.toList_inj]
    simp [fullName]
  rw [hname, lastPart_append hw, Code.classNamed]
  simp

/-- The word for the type of the request names that type. -/
theorem Compiles.input (h : Compiles d) (hs : srv ∈ d.service) (hm : m ∈ srv.method) :
    (sourceCode d).classNamed (inputT m) = m.inputType :=
  classNamed_lastPart (h.types srv hs m hm).1

/-- The word for the type of the response names that type. -/
theorem Compiles.output (h : Compiles d) (hs : srv ∈ d.service) (hm : m ∈ srv.method) :
    (sourceCode d).classNamed (outputT m) = m.outputType :=
  classNamed_lastPart (h.types srv hs m hm).2

end Scopes

section Service

variable {d : FileDescriptorProto} {srv : ServiceDescriptorProto}

/-- Behind the cases. -/
abbrev rest : List Stmt := [.default, .ret (.name "false".toList), .close]

/-- A number beyond the methods has no case. -/
theorem caseOf_none {idx : Int} {i : Nat} {ms : List MethodDescriptorProto}
    (h : ∀ n < ms.length, ((i + n : Nat) : Int) ≠ idx) :
    caseOf idx (cases i ms ++ rest) = none := by
  induction ms generalizing i with
  | nil => rfl
  | cons m ms ih =>
    have hne : (i : Int) ≠ idx := h 0 (Nat.zero_lt_succ _)
    have htail : caseOf idx (cases (i + 1) ms ++ rest) = none := by
      refine ih fun n hn => ?_
      have hnext := h (n + 1) (Nat.succ_lt_succ hn)
      omega
    simp only [cases, List.cons_append, caseOf, if_neg hne, htail]

/-- The switch goes to the case of the number. -/
theorem caseOf_cases {i n : Nat} {ms : List MethodDescriptorProto} {m : MethodDescriptorProto}
    (h : ms[n]? = some m) : (caseOf ((i + n : Nat) : Int) (cases i ms ++ rest)).bind straight =
      some (.invoke m.name.toList (inputT m) (outputT m)) := by
  induction ms generalizing i n with
  | nil => cases h
  | cons m' ms ih =>
    cases n with
    | zero =>
      obtain rfl : m' = m := by simpa using h
      simp only [cases, List.cons_append, caseOf, Nat.add_zero, if_true, Option.bind_some, straight]
    | succ n =>
      have hne : (i : Int) ≠ ((i + (n + 1) : Nat) : Int) := by omega
      have htail := ih (i := i + 1) (by simpa using h)
      have hnum : i + 1 + n = i + (n + 1) := by omega
      rw [hnum] at htail
      simp only [cases, List.cons_append, caseOf, if_neg hne]
      exact htail

theorem defaultOf_cases (i : Nat) (ms : List MethodDescriptorProto) :
    defaultOf (cases i ms ++ rest) = some [.ret (.name "false".toList), .close] := by
  induction ms generalizing i with
  | nil => rfl
  | cons m ms ih => simp only [cases, List.cons_append, defaultOf, ih (i + 1)]

/-- The number of a method leads to its call. -/
theorem returned_call {n : Nat} {m : MethodDescriptorProto} (h : srv.method[n]? = some m) :
    returned n (body srv .call) = some (.invoke m.name.toList (inputT m) (outputT m)) := by
  have hcase := caseOf_cases (i := 0) h
  rw [Nat.zero_add] at hcase
  cases hf : caseOf n (cases 0 srv.method ++ rest) with
  | none =>
    rw [hf] at hcase
    cases hcase
  | some ss =>
    rw [hf] at hcase
    simp only [body, returned, hf, Option.some_or]
    exact hcase

/-- Any other number leads to the default. -/
theorem returned_other {idx : Int} (h : ∀ n < srv.method.length, (n : Int) ≠ idx) :
    returned idx (body srv .call) = some (.name "false".toList) := by
  have hcase : caseOf idx (cases 0 srv.method ++ rest) = none := by
    refine caseOf_none fun n hn => ?_
    rw [Nat.zero_add]
    exact h n hn
  simp only [body, returned, hcase, defaultOf_cases, Option.none_or, Option.bind_some, straight]

variable {M : Type}

/-- The service that the descriptor describes: the number of a method leads to the method of the
user's class. -/
def described (new : String → M) (handlers : Handlers M) (srv : ServiceDescriptorProto) :
    PbService M where
  name := bytesOf srv.name.toList
  findMethodByName := findMethodByName new srv
  call index request response := do
    let m ← srv.method[index]?
    handlers m.name.toList m.inputType m.outputType request response

/-- `Call` returns false there. -/
theorem call_other (h : Declared d) (hs : srv ∈ d.service) (handlers : Handlers M) {idx : Int}
    (hidx : ∀ n < srv.method.length, (n : Int) ≠ idx) (request response : M) :
    call (sourceCode d) srv.name.toList handlers idx request response = some none := by
  have hbody : bodyOf (sourceCode d) (callDeclaration srv.name.toList) = some (body srv .call) :=
    bodyOf_declaration (k := .call) h hs (by simp [members])
  simp only [call, hbody, Option.bind_eq_bind, Option.bind_some, returned_other hidx]
  rfl

/-- `Call` does what the described service does. -/
theorem call_described (h : Compiles d) (hs : srv ∈ d.service) (new : String → M)
    (handlers : Handlers M) (n : Nat) (request response : M) :
    call (sourceCode d) srv.name.toList handlers n request response =
      some ((described new handlers srv).call n request response) := by
  have hbody : bodyOf (sourceCode d) (callDeclaration srv.name.toList) = some (body srv .call) :=
    bodyOf_declaration (k := .call) h.toDeclared hs (by simp [members])
  cases hm : srv.method[n]? with
  | none =>
    have hlen : srv.method.length ≤ n := List.getElem?_eq_none_iff.mp hm
    rw [call_other h.toDeclared hs handlers (fun i hi => by omega)]
    simp only [described, hm]
    rfl
  | some m =>
    have hmem : m ∈ srv.method := List.mem_of_getElem? hm
    simp only [call, hbody, Option.bind_eq_bind, Option.bind_some, returned_call hm, described, hm,
      h.input hs hmem, h.output hs hmem]
    rfl

/-- `name()` of the service is the name in the descriptor. -/
theorem nameOf_service (h : Declared d) (hs : srv ∈ d.service) :
    nameOf (sourceCode d) (serviceClass srv.name.toList) = some srv.name.toList := by
  have hbody : bodyOf (sourceCode d) (nameDeclaration (serviceClass srv.name.toList)) =
      some (body srv .name) :=
    bodyOf_declaration (k := .name) h hs (by simp [members])
  rw [nameOf, hbody]
  rfl

theorem nameOf_stub (h : Declared d) (hs : srv ∈ d.service) :
    nameOf (sourceCode d) (stubClass srv.name.toList) = some srv.name.toList := by
  have hbody : bodyOf (sourceCode d) (nameDeclaration (stubClass srv.name.toList)) =
      some (body srv .stubName) :=
    bodyOf_declaration (k := .stubName) h hs (by simp [members])
  rw [nameOf, hbody]
  rfl

theorem descriptorOf_service (h : Declared d) (hs : srv ∈ d.service) :
    descriptorOf (sourceCode d) srv.name.toList = some srv.name.toList := by
  have hbody : bodyOf (sourceCode d) (descriptorDeclaration srv.name.toList) =
      some (body srv .descriptor) :=
    bodyOf_declaration (k := .descriptor) h hs (by simp [members])
  rw [descriptorOf, hbody]
  rfl

/-- The code of the file is an implementation of the described service. -/
theorem implements_described (h : Compiles d) (hs : srv ∈ d.service) (new : String → M)
    (handlers : Handlers M) :
    Implements (sourceCode d) d new handlers srv.name.toList (described new handlers srv) := by
  constructor
  · rw [nameOf_service h.toDeclared hs]
    rfl
  · refine ⟨srv.name.toList, srv, descriptorOf_service h.toDeclared hs, ?_, rfl⟩
    refine find?_unique hs (decide_eq_true rfl) ?_
    intro srv' hs' hname
    exact h.service_eq hs' hs (of_decide_eq_true hname)
  · exact call_described h hs new handlers

end Service

section Stub

variable {d : FileDescriptorProto} {srv : ServiceDescriptorProto}
    {m : MethodDescriptorProto} {M : Type}

/-- Both methods of the stub hand the names and the request to the client once. The first one makes
the response and stores the error if it is asked for it. The words of their declarations name the
types of the descriptor. -/
structure Calls (M : Type) (code : Code) (srv : ServiceDescriptorProto) (m : MethodDescriptorProto)
    (i o : Text) : Prop where
  input : code.classNamed i = m.inputType
  output : code.classNamed o = m.outputType
  shared : ∀ (new : String → M) (client : ClientCall M) (request : M) (l : Locals M),
    let r := client (bytesOf srv.name.toList)
      (bytesOf m.name.toList) request (some (new m.outputType))
    stubMethod code srv.name.toList (sharedDeclaration srv.name.toList m.name.toList i o) new client
      request l = some ⟨none, r.2, l.ec.map fun _ => if r.1.failed then r.1 else .ok⟩
  error : ∀ (new : String → M) (client : ClientCall M) (request : M) (l : Locals M),
    let r := client (bytesOf srv.name.toList) (bytesOf m.name.toList) request l.response
    stubMethod code srv.name.toList (errorDeclaration srv.name.toList m.name.toList i o) new client
      request l = some ⟨some r.1, r.2, l.ec⟩

/-- The code of the file has both methods of every stub. -/
theorem calls_functions (h : Compiles d) (hs : srv ∈ d.service) (hm : m ∈ srv.method) :
    Calls M (sourceCode d) srv m (inputT m) (outputT m) := by
  have hshared : bodyOf (sourceCode d)
      (sharedDeclaration srv.name.toList m.name.toList (inputT m) (outputT m)) =
        some (body srv (.shared m)) :=
      bodyOf_declaration (k := .shared m) h.toDeclared hs (by simp [members, hm])
  have herror : bodyOf (sourceCode d)
      (errorDeclaration srv.name.toList m.name.toList (inputT m) (outputT m)) =
        some (body srv (.error m)) :=
      bodyOf_declaration (k := .error m) h.toDeclared hs (by simp [members, hm])
  refine ⟨h.input hs hm, h.output hs hm, ?_, ?_⟩
  · intro new client request l
    rw [stubMethod, nameOf_stub h.toDeclared hs, hshared, ← h.output hs hm]
    rfl
  · intro new client request l
    rw [stubMethod, nameOf_stub h.toDeclared hs, herror]
    rfl

/-- Words are told apart by their bytes. -/
theorem bytesOf_inj {w v : Text} (hw : IsWord w) (hv : IsWord v) (h : bytesOf w = bytesOf v) :
    w = v := by
  have hback : ∀ {w : Text}, IsWord w → (bytesOf w).map (fun b => Char.ofNat b.toNat) = w := by
    intro w hw
    rw [bytesOf, List.map_map]
    refine (List.map_congr_left fun c hc => ?_).trans (List.map_id w)
    have hlt : c.toNat < 256 := Nat.lt_trans (wordChar_lt (hw.2 c hc)) (by decide)
    have hbyte : (UInt8.ofNat c.toNat).toNat = c.toNat := by
      rw [UInt8.toNat_ofNat', Nat.mod_eq_of_lt hlt]
    simp only [Function.comp_apply, hbyte, Char.ofNat_toNat, id]
  rw [← hback hw, h, hback hv]

end Stub

section System

variable {oriFilename : String} {d : FileDescriptorProto} {srv : ServiceDescriptorProto} {M : Type}

/-- A method of the descriptor is found by the bytes of its name. -/
theorem described_method (hn : FileNamed oriFilename d) (h : Declared d)
    (hs : srv ∈ d.service) (pb : Protobuf M)
    (new : String → M) (handlers : Handlers M) {m : MethodDescriptorProto}
    (hm : m ∈ srv.method) (data : Bytes) :
    (described new handlers srv).callMethod pb (bytesOf m.name.toList) data = do
      let request ← pb.parseFromArray (new m.inputType) data
      let response ← handlers m.name.toList m.inputType m.outputType request (new m.outputType)
      return pb.message response := by
  have hnamed := (hn.service srv hs).method
  have hidx : ∃ n,
      (srv.method.findIdx? fun m' => bytesOf m'.name.toList = bytesOf m.name.toList) = some n ∧
        srv.method[n]? = some m := by
    cases hf : srv.method.findIdx? fun m' => bytesOf m'.name.toList = bytesOf m.name.toList with
    | none => exact absurd (List.findIdx?_eq_none_iff.mp hf m hm) (by simp)
    | some n =>
      obtain ⟨hn', hname, -⟩ := List.findIdx?_eq_some_iff_getElem.mp hf
      have hmem : srv.method[n] ∈ srv.method := List.getElem_mem hn'
      have hword := bytesOf_inj (hnamed _ hmem).name (hnamed m hm).name (of_decide_eq_true hname)
      exact ⟨n, rfl, (List.getElem?_eq_getElem hn').trans
        (congrArg some (h.method_eq hs hmem hm hword))⟩
  obtain ⟨n, hfind, hget⟩ := hidx
  have hdescriptor : (described new handlers srv).findMethodByName (bytesOf m.name.toList) =
      some ⟨n, new m.inputType, new m.outputType⟩ := by
    simp only [described, findMethodByName, hfind, hget, Option.bind_eq_bind, Option.bind_some]
    rfl
  rw [PbService.callMethod, hdescriptor]
  cases hparse : pb.parseFromArray (new m.inputType) data with
  | none => simp [hparse]
  | some request =>
    cases hcall : handlers m.name.toList m.inputType m.outputType request (new m.outputType) with
    | none => simp [hparse, described, hget, hcall]
    | some response => simp [hparse, described, hget, hcall]

/-- What the server sends back for the outcome of a method. -/
def reply {H : Type} [IHeader H] (header : H) (outcome : Option IMessage) : Option Bytes :=
  outcome.bind fun response =>
    if IHeader.getType header ≠ .onewayRequest then
      let header := IHeader.setFollowBytes (IHeader.setType header .response) response.byteSize
      let head := (IHeader.serialize header (IHeader.byteSize header)).getD
        (List.replicate (IHeader.byteSize header) 0)
      (response.serialize response.byteSize).map fun body => head ++ body
    else none

/-- A request of the name comes to the service that was registered first under it. -/
theorem dispatchMsg_registered {H : Type} [IHeader H] {s : ServerImpl}
    {service : IService} {header : H}
    (hfree : s.services service.name = none) (hname : IHeader.getService header = service.name)
    (data : Bytes) : (s.registerService service).2.dispatchMsg header data =
      (true, reply header (service.callMethod (IHeader.getMethod header) data)) := by
  have hfound : (s.registerService service).2.services (IHeader.getService header) =
      some service := by
    rw [ServerImpl.registerService, hfree, hname]
    exact if_pos rfl
  rw [ServerImpl.dispatchMsg, hfound]
  dsimp only
  cases service.callMethod (IHeader.getMethod header) data with
  | none => rfl
  | some response =>
    simp only [reply, Option.bind_some]
    split
    · cases response.serialize response.byteSize with
      | none => rfl
      | some body => rfl
    · rfl

/-- The request of a stub for a method. -/
def Addressed {H : Type} [IHeader H] (header : H) (srv : ServiceDescriptorProto)
    (m : MethodDescriptorProto) : Prop :=
  IHeader.getService header = bytesOf srv.name.toList ∧
  IHeader.getMethod header = bytesOf m.name.toList

/-- From the text that the plugin writes: the methods of the stub hand over the two names, and a
request with these names comes to the method of the class that the user derives, with the types of
the descriptor; no other number calls any method. -/
theorem stub_reaches (hn : FileNamed oriFilename d) (h : Compiles d)
    (hs : srv ∈ d.service) (pb : Protobuf M) (new : String → M) (handlers : Handlers M) :
    ∃ code service, definitions (source oriFilename d) = some code ∧
      Implements code d new handlers srv.name.toList service ∧
      (∀ (idx : Int) (request response : M), (∀ n < srv.method.length, (n : Int) ≠ idx) →
        call code srv.name.toList handlers idx request response = some none) ∧
      ∀ m ∈ srv.method, (∃ i o, Calls M code srv m i o) ∧
        ∀ {H : Type} [IHeader H] (s : ServerImpl) (header : H) (data : Bytes),
          s.services service.name = none → Addressed header srv m →
          (s.registerService (service.toIService pb)).2.dispatchMsg header data =
            (true, reply header do
            let request ← pb.parseFromArray (new m.inputType) data
            let response ← handlers m.name.toList m.inputType m.outputType
              request (new m.outputType)
            return pb.message response) := by
  refine ⟨sourceCode d, described new handlers srv, definitions_source hn,
    implements_described h hs new handlers, ?_, ?_⟩
  · intro idx request response hidx
    exact call_other h.toDeclared hs handlers hidx request response
  · intro m hm
    refine ⟨⟨inputT m, outputT m, calls_functions h hs hm⟩, ?_⟩
    intro H _ s header data hfree haddressed
    have hcall := described_method hn h.toDeclared hs pb new handlers hm data
    have hreply := @dispatchMsg_registered H _ s
      ((described new handlers srv).toIService pb) header hfree
      haddressed.1 data
    rw [hreply, haddressed.2, ← hcall]
    rfl

/-- `echo.proto` of the tests. -/
def echo : FileDescriptorProto :=
  ⟨"echo.proto", "Echo", [],
    [⟨"EchoService", [⟨"Echo", ".Echo.EchoRequest", ".Echo.EchoResponse"⟩]⟩]⟩

theorem echo_named : FileNamed "echo" echo := by
  have hfile : '\n' ∉ "echo".toList := by decide
  refine ⟨fun c hc hend => hfile (hend ▸ hc), by decide, fun srv hsrv => ?_⟩
  obtain rfl := List.mem_singleton.mp hsrv
  refine ⟨by decide, fun m hm => ?_⟩
  obtain rfl := List.mem_singleton.mp hm
  exact ⟨by decide, by decide, by decide⟩

theorem echo_declared : Declared echo := by
  refine ⟨List.nodup_singleton _, fun srv hsrv srv' hsrv' => ?_, fun srv hsrv => ?_⟩
  · obtain rfl := List.mem_singleton.mp hsrv
    obtain rfl := List.mem_singleton.mp hsrv'
    decide
  · obtain rfl := List.mem_singleton.mp hsrv
    exact List.nodup_singleton _

/-- A check that can be computed. -/
theorem free_of_notMem {w : String} (hdigit : w.toList.head?.all (fun c => !c.isDigit) = true)
    (h : taken.contains w = false) : Free w := by
  refine ⟨fun c hc => ?_, by simpa using h⟩
  rw [Option.mem_def.mp hc] at hdigit
  simpa using hdigit

theorem echo_compiles : Compiles echo := by
  have hrequest : TopLevel "Echo" ".Echo.EchoRequest" :=
    ⟨"EchoRequest", by decide, free_of_notMem rfl (by decide +kernel), rfl⟩
  have hresponse : TopLevel "Echo" ".Echo.EchoResponse" :=
    ⟨"EchoResponse", by decide, free_of_notMem rfl (by decide +kernel), rfl⟩
  have hgenerated : generated echo =
      ["UcorfEchoService", "UcorfEchoServiceStub", "EchoService_Stub"] := rfl
  have hclasses : classes echo = generated echo ++ ["EchoService"] := rfl
  refine ⟨echo_declared, free_of_notMem rfl (by decide +kernel), fun srv hsrv => ?_,
    fun srv hsrv m hm => ?_, fun srv hsrv w hw m hm => ?_⟩ <;>
    obtain rfl := List.mem_singleton.mp hsrv
  · refine ⟨free_of_notMem rfl (by decide +kernel), by simp [hgenerated], fun m hm => ?_⟩
    obtain rfl := List.mem_singleton.mp hm
    exact ⟨free_of_notMem rfl (by decide +kernel), by simp [hclasses, hgenerated]⟩
  · obtain rfl := List.mem_singleton.mp hm
    exact ⟨hrequest, hresponse⟩
  · obtain rfl := List.mem_singleton.mp hm
    simp only [hclasses, hgenerated, List.map_cons, List.map_nil, List.cons_append,
      List.nil_append, List.mem_cons, List.not_mem_nil, or_false] at hw
    obtain rfl | rfl | rfl | rfl | rfl := hw <;> exact ⟨by decide, by decide⟩

/-- Messages of plain bytes. -/
def plain : Protobuf Bytes where
  parseFromArray _ data := some data
  byteSize msg := msg.length
  serializeToArray msg len := if msg.length ≤ len then some msg else none

def echoHead : UcorfHead := ⟨0, 7, 3, bytesOf "EchoService".toList, bytesOf "Echo".toList⟩

theorem stub_reaches_echo :
    ∃ code service, definitions (source "echo" echo) = some code ∧
      Implements code echo (fun _ => [])
        (fun _ _ _ request _ => some request) "EchoService".toList service ∧
      (∃ i o, Calls Bytes code ⟨"EchoService",
        [⟨"Echo", ".Echo.EchoRequest", ".Echo.EchoResponse"⟩]⟩
          ⟨"Echo", ".Echo.EchoRequest", ".Echo.EchoResponse"⟩ i o) ∧
      ((ServerImpl.mk fun _ => none).registerService (service.toIService plain)).2.dispatchMsg
        echoHead [8, 5, 1] =
        (true, some ((echoHead.setType .response).bytes ++ [8, 5, 1])) := by
  obtain ⟨code, service, hcode, hservice, -, hmethods⟩ :=
    stub_reaches echo_named echo_compiles List.mem_cons_self
    plain (fun _ => []) fun _ _ _ request _ => some request
  obtain ⟨hcalls, hdispatch⟩ := hmethods _ List.mem_cons_self
  refine ⟨code, service, hcode, hservice, hcalls, ?_⟩
  rw [hdispatch (ServerImpl.mk fun _ => none) echoHead [8, 5, 1] rfl ⟨rfl, rfl⟩]
  rfl

end System

end Ucorf.ProtocGenMeaning
