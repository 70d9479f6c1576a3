import Ucorf.Brackets
import Ucorf.ProtocGenRpc

/-!
# The braces of the generated code

Each part of `Gen` has its braces and its effect on the indentation. The services and the
methods are balanced by themselves, while the package opens a brace that is closed only if
it has a name.
-/
namespace Ucorf.ProtocGenBraces

open DyckStep
open Ucorf.Brackets
open Ucorf.ProtocGenRpc

/-- Neither brace is in the name. -/
def BraceFree (s : String) : Prop := '\x7b' ∉ s.toList ∧ '\x7d' ∉ s.toList

instance (s : String) : Decidable (BraceFree s) := inferInstanceAs (Decidable (_ ∧ _))

/-- The names of a method, as far as they are written. -/
structure MethodFree (m : MethodDescriptorProto) : Prop where
  name : BraceFree m.name
  input : BraceFree (lastPart m.inputType)
  output : BraceFree (lastPart m.outputType)

structure NamesFree (srv : ServiceDescriptorProto) : Prop where
  name : BraceFree srv.name
  method : ∀ m ∈ srv.method, MethodFree m

abbrev Braced (t : Text) : Prop := Balanced '\x7b' '\x7d' t

def braces (s : String) : List DyckStep := steps '\x7b' '\x7d' s.toList

section Strings

variable {s t : String}

/-- The braces of a text come in its order. -/
@[simp] theorem braces_append : braces (s ++ t) = braces s ++ braces t := by
  rw [braces, String.toList_append, steps_append, braces, braces]

/-- A literal is the string of its letters. -/
theorem braces_literal {l : Text} (h : String.ofList l = s) : braces s = steps '\x7b' '\x7d' l := by
  rw [← h, braces, String.toList_ofList]

theorem braces_empty : braces "" = [] := (braces_literal (l := []) rfl).trans rfl

theorem braces_open : braces "\x7b" = [U] := (braces_literal rfl).trans rfl

/-- A name without braces writes none. -/
theorem BraceFree.braces (h : BraceFree s) : braces s = [] := steps_of_free h.1 h.2

theorem braces_number (i : Nat) : braces i.repr = [] := by
  have hdigit : ∀ c ∈ i.repr.toList, c.isDigit = true := by
    intro c hc
    rw [Nat.repr_eq_ofList_toDigits, String.toList_ofList] at hc
    exact Nat.isDigit_of_mem_toDigits (by decide) (by decide) hc
  apply steps_of_free
  · intro hmem
    exact absurd (hdigit _ hmem) (by decide)
  · intro hmem
    exact absurd (hdigit _ hmem) (by decide)

end Strings

section Writers

variable {c c' c'' : C} {info : String}

/-- The braces that the writer has. -/
def written (c : C) : List DyckStep := steps '\x7b' '\x7d' c.c

/-- A line adds its own braces, since the indentation has none. -/
@[simp] theorem written_outline : written (c.outline info) = written c ++ braces info := by
  have hindent : '\x7b' ∉ (List.replicate c.idt.toNat indentContent).flatten ∧
      '\x7d' ∉ (List.replicate c.idt.toNat indentContent).flatten := by
    simp [indentContent]
  have hend : steps '\x7b' '\x7d' ['\n'] = [] := rfl
  rw [C.outline]
  split
  · rename_i hempty
    rw [hempty, written, steps_append, hend]
    rfl
  · simp only [written, braces, steps_append, steps_of_free hindent.1 hindent.2, hend,
      List.nil_append, List.append_nil]

@[simp] theorem written_out : written (c.out info) = written c ++ braces info :=
    steps_append _ _ _ _

@[simp] theorem written_it : written c.it = written c := rfl

@[simp] theorem written_itEnd : written c.itEnd = written c := rfl

@[simp] theorem idt_outline : (c.outline info).idt = c.idt := by
  rw [C.outline]
  split <;> rfl

@[simp] theorem idt_out : (c.out info).idt = c.idt := rfl

@[simp] theorem idt_it : c.it.idt = c.idt + 1 := rfl

@[simp] theorem idt_itEnd : c.itEnd.idt = c.idt - 1 := rfl

/-- From one writer to another one: the braces that are written and the change of `idt`. -/
structure Writes (c c' : C) (b : List DyckStep) (n : Int) : Prop where
  braces : written c' = written c ++ b
  idt : c'.idt = c.idt + n

/-- The braces and the changes of the indentation add up. -/
theorem Writes.trans {b b' : List DyckStep} {n n' : Int} (h : Writes c c' b n)
    (h' : Writes c' c'' b' n') : Writes c c'' (b ++ b') (n + n') := by
  constructor
  · rw [h'.braces, h.braces, List.append_assoc]
  · rw [h'.idt, h.idt, Int.add_assoc]

/-- A loop whose body leaves `idt` as it is. -/
theorem writes_foldl {α : Type} {f : C → α → C} {b : α → List DyckStep} {xs : List α}
    (h : ∀ x ∈ xs, ∀ c, Writes c (f c x) (b x) 0) (c : C) :
    Writes c (xs.foldl f c) (xs.flatMap b) 0 := by
  induction xs generalizing c with
  | nil => exact ⟨(List.append_nil _).symm, (Int.add_zero _).symm⟩
  | cons x xs ih =>
    rw [List.foldl_cons, List.flatMap_cons]
    have htail := ih (fun y hy => h y (List.mem_cons_of_mem _ hy)) (f c x)
    exact (h x List.mem_cons_self c).trans htail

/-- A loop whose rounds write no brace writes none. -/
theorem writes_foldl_nil {α : Type} {f : C → α → C} {xs : List α}
    (h : ∀ x ∈ xs, ∀ c, Writes c (f c x) [] 0) (c : C) : Writes c (xs.foldl f c) [] 0 := by
  have hloop := writes_foldl h c
  rwa [List.flatMap_eq_nil_iff.mpr fun _ _ => rfl] at hloop

end Writers

section Header

variable {m : MethodDescriptorProto} {srv : ServiceDescriptorProto}

/-- A method of the service class is declared without braces. -/
theorem declareMethod_writes (hm : MethodFree m) (c : C) : Writes c (declareMethod c m) [] 0 := by
  constructor
  · simp (disch := rfl) only [declareMethod, written_outline, braces_append, toString,
      hm.name.braces, hm.input.braces, hm.output.braces, braces_literal, List.append_assoc]
    rfl
  · simp [declareMethod]

theorem declareStub_writes (hm : MethodFree m) (c : C) : Writes c (declareStub c m) [] 0 := by
  constructor
  · simp (disch := rfl) only [declareStub, written_outline, braces_append, toString,
      hm.name.braces, hm.input.braces, hm.output.braces, braces_literal, List.append_assoc]
    rfl
  · simp [declareStub]

/-- The service class is left open, one step further in. -/
theorem openService_writes {srvName : String} (h : BraceFree srvName) (c : C) :
    Writes c (openService c srvName) [U] 1 := by
  constructor
  · simp (disch := rfl) only [openService, written_outline, written_it, braces_append, toString,
      h.braces, braces_literal, List.append_assoc]
    rfl
  · simp [openService]

/-- The service class is closed and the class of the stub is left open. -/
theorem openStub_writes {srvName : String} (h : BraceFree srvName) (c : C) :
    Writes c (openStub c srvName) [D, U] 0 := by
  constructor
  · simp (disch := rfl) only [openStub, written_outline, written_it, written_itEnd, braces_append,
      toString, h.braces, braces_literal, List.append_assoc]
    rfl
  · simp [openStub]

theorem closeStub_writes (c : C) : Writes c (closeStub c) [D] (-1) := by
  constructor
  · simp (disch := rfl) only [closeStub, written_outline, written_itEnd, braces_literal]
    rfl
  · simp [closeStub, Int.sub_eq_add_neg]

/-- The two classes of a service. -/
theorem declareService_writes (h : NamesFree srv) (c : C) :
    Writes c (declareService c srv) [U, D, U, D] 0 := by
  have hopen := openService_writes h.name c
  have hmethods := hopen.trans
    (writes_foldl_nil (fun m hm c => declareMethod_writes (h.method m hm) c) _)
  have hstub := hmethods.trans (openStub_writes h.name _)
  have hstubs := hstub.trans
    (writes_foldl_nil (fun m hm c => declareStub_writes (h.method m hm) c) _)
  exact hstubs.trans (closeStub_writes _)

/-- The brace of the namespace comes with a package and without one. -/
theorem openPackage_writes (package : String) (c : C) :
    Writes c (openPackage c package) (braces package ++ [U]) 1 := by
  by_cases hempty : package = ""
  · subst hempty
    constructor
    · simp only [openPackage, if_true, written_outline, written_it, braces_empty, braces_open,
        List.append_assoc, List.nil_append]
    · simp [openPackage]
  · have hnamespace : braces "namespace " = [] := (braces_literal rfl).trans rfl
    constructor
    · simp only [openPackage, if_neg hempty, written_outline, written_it, written_out,
        braces_append, toString, hnamespace, braces_empty, braces_open, List.append_assoc,
        List.nil_append]
    · simp [openPackage, hempty]

/-- The brace of the package is closed if the package has a name. -/
def closing (package : String) : List DyckStep := if package = "" then [] else [D]

/-- It is closed with a package only. -/
theorem closePackage_writes (package : String) (c : C) :
    Writes c (closePackage c package) (closing package) (-1) := by
  by_cases hempty : package = ""
  · constructor
    · simp (disch := rfl) only [closePackage, closing, if_pos hempty,
        written_outline, written_itEnd,
        braces_literal]
      rfl
    · simp [closePackage, hempty, Int.sub_eq_add_neg]
  · constructor
    · simp (disch := rfl) only [closePackage, closing, if_neg hempty, written_outline, written_out,
        written_itEnd, braces_literal, List.append_assoc]
      rfl
    · simp [closePackage, hempty, Int.sub_eq_add_neg]

theorem beginHeader_writes (oriFilename : String) :
    Writes .init (beginHeader oriFilename) (braces oriFilename) 0 := by
  have hpb : braces "#include <ucorf/pb_service.h>" = [] := (braces_literal rfl).trans rfl
  have hinclude : braces "#include \"" = [] := (braces_literal rfl).trans rfl
  have hend : braces ".pb.h\"" = [] := (braces_literal rfl).trans rfl
  constructor
  · simp only [beginHeader, written_outline, braces_append, toString, hpb, hinclude, hend,
      braces_empty, List.append_nil, List.nil_append]
  · simp [beginHeader]

theorem useNamespaces_writes (c : C) : Writes c (useNamespaces c) [] 0 := by
  constructor
  · simp (disch := rfl) only [useNamespaces, written_outline, braces_literal, List.append_assoc]
    rfl
  · simp [useNamespaces]

/-- What stands between the braces of the package. -/
theorem package_writes {package : String} {c c' : C} {s b : List DyckStep}
    (hbegin : Writes .init c s 0) (hbody : Writes (openPackage c package) c' b 0) :
    Writes .init (closePackage c' package) (s ++ (braces package ++ U :: (b ++ closing package)))
      0 := by
  have hopen := (hbegin.trans (openPackage_writes package c)).trans hbody
  have hclose := hopen.trans (closePackage_writes package c')
  simp only [List.append_assoc, List.cons_append, List.nil_append] at hclose
  exact hclose

/-- All braces of the header: two pairs for each service, inside the one of the package. -/
theorem writeHeader_writes {oriFilename : String} {d : FileDescriptorProto}
    (h : ∀ srv ∈ d.service, NamesFree srv) :
    Writes .init (writeHeader oriFilename d) (braces (oriFilename ++ d.package) ++
      U :: (d.service.flatMap (fun _ => [U, D, U, D]) ++ closing d.package)) 0 := by
  rw [braces_append, List.append_assoc]
  have hservices := (useNamespaces_writes (openPackage (beginHeader oriFilename) d.package)).trans
    (writes_foldl (fun srv hsrv c => declareService_writes (h srv hsrv) c) _)
  exact package_writes (beginHeader_writes oriFilename) hservices

end Header

section Source

variable {m : MethodDescriptorProto} {srv : ServiceDescriptorProto}

/-- A case of the switch has no braces. -/
theorem callMethod_writes (hm : MethodFree m) (c : C) (i : Nat) :
    Writes c (callMethod (c, i) m).1 [] 0 := by
  constructor
  · simp (disch := rfl) only [callMethod, written_outline, written_it, written_itEnd, braces_append,
      braces_number, toString, hm.name.braces, hm.input.braces, hm.output.braces, braces_literal,
      List.append_assoc]
    rfl
  · simp [callMethod]

theorem callMethods_writes {ms : List MethodDescriptorProto} (h : ∀ m ∈ ms, MethodFree m) (c : C)
    (i : Nat) : Writes c (ms.foldl callMethod (c, i)).1 [] 0 := by
  induction ms generalizing c i with
  | nil => exact ⟨(List.append_nil _).symm, (Int.add_zero _).symm⟩
  | cons m ms ih =>
    have hhead := callMethod_writes (h m List.mem_cons_self) c i
    exact hhead.trans (ih (fun m' hm' => h m' (List.mem_cons_of_mem _ hm')) _ _)

/-- The first method of a stub has the pair of the `if` in it. -/
theorem defineStub_writes {srvName : String} (h : BraceFree srvName) (hm : MethodFree m) (c : C) :
    Writes c (defineStub srvName c m) [U, U, D, D, U, D] 0 := by
  constructor
  · simp (disch := rfl) only [defineStub, C.itf, C.itfEnd, written_outline, written_it,
      written_itEnd, braces_append, toString, h.braces, hm.name.braces, hm.input.braces,
      hm.output.braces, braces_literal, List.append_assoc]
    rfl
  · simp [defineStub, C.itf, C.itfEnd]

/-- The methods of the service class, of the switch and of the constructor of the stub come
before those of the stub. -/
theorem defineService_writes (h : NamesFree srv) (c : C) :
    Writes c (defineService c srv) ([U, D, U, U, D, D, U, D, U, D, U, D] ++
      srv.method.flatMap fun _ => [U, U, D, D, U, D]) 0 := by
  have hcalls (c : C) (i : Nat) := callMethods_writes h.method c i
  refine Writes.trans (n := 0) ?_
    (writes_foldl (fun m hm c => defineStub_writes h.name (h.method m hm) c) _)
  constructor
  · simp (disch := rfl) only [C.itf, C.itfEnd, written_outline, written_it, written_itEnd,
      (hcalls _ _).braces, braces_append, toString, h.name.braces,
        braces_literal, List.append_assoc]
    rfl
  · simp [C.itf, C.itfEnd, (hcalls _ _).idt]

/-- All braces of the source, by its services and their methods. -/
theorem writeSource_writes {oriFilename : String} {d : FileDescriptorProto}
    (h : ∀ srv ∈ d.service, NamesFree srv) :
    Writes .init (writeSource oriFilename d) (braces (oriFilename ++ d.package) ++
      U :: (d.service.flatMap (fun srv => [U, D, U, U, D, D, U, D, U, D, U, D] ++
        srv.method.flatMap fun _ => [U, U, D, D, U, D]) ++ closing d.package)) 0 := by
  have hinclude : braces "#include \"" = [] := (braces_literal rfl).trans rfl
  have hend : braces ".rpc.h\"" = [] := (braces_literal rfl).trans rfl
  have hbegin : Writes .init (C.init |>.outline s!"#include \"{oriFilename}.rpc.h\"" |>.outline "")
      (braces oriFilename) 0 := by
    constructor
    · simp only [written_outline, braces_append, toString, hinclude, hend, braces_empty,
        List.append_nil, List.nil_append]
    · simp
  rw [braces_append, List.append_assoc]
  exact package_writes hbegin
    (writes_foldl (fun srv hsrv c => defineService_writes (h srv hsrv) c) _)

end Source

section Files

variable {s m : List DyckStep} {package filename : String} {d : FileDescriptorProto}

/-- The name of the package decides whether its brace is closed. -/
theorem isDyck_package (hm : IsDyck m) :
    IsDyck (s ++ U :: (m ++ closing package)) ↔ package ≠ "" ∧ IsDyck s := by
  by_cases hempty : package = ""
  · simp [closing, hempty, not_isDyck_open hm]
  · simp [closing, hempty, isDyck_append_iff hm.nest]

theorem isDyck_pair : IsDyck [U, D] := isDyck_nil.nest

/-- What is written from the start is braced when its steps are balanced. -/
theorem Writes.braced_iff {c : C} {n : Int} (h : Writes .init c s n) : Braced c.c ↔ IsDyck s := by
  have hwritten : steps '\x7b' '\x7d' c.c = s := h.braces
  rw [Braced, balanced_iff (by decide), hwritten]

/-- What is expected of the two files and of their writers. -/
structure BracedFiles (filename : String) (d : FileDescriptorProto) : Prop where
  files : ∀ f ∈ gen [] filename d, Braced f.content
  header : (writeHeader (splitext filename) d).idt = 0
  source : (writeSource (splitext filename) d).idt = 0

/-- The header is braced when there is a package and the names write no loose brace. -/
theorem header_braced_iff (h : ∀ srv ∈ d.service, NamesFree srv) (oriFilename : String) :
    Braced (header oriFilename d) ↔ d.package ≠ "" ∧ Braced (oriFilename ++ d.package).toList := by
  have hclasses : IsDyck (d.service.flatMap fun _ => [U, D, U, D]) :=
    .flatMap fun _ _ => isDyck_pair.append isDyck_pair
  rw [header, (writeHeader_writes h).braced_iff, isDyck_package hclasses, Braced,
    balanced_iff (by decide), braces]

/-- The source is braced under the same condition. -/
theorem source_braced_iff (h : ∀ srv ∈ d.service, NamesFree srv) (oriFilename : String) :
    Braced (source oriFilename d) ↔ d.package ≠ "" ∧ Braced (oriFilename ++ d.package).toList := by
  have hstub : IsDyck [U, U, D, D, U, D] := isDyck_pair.nest.append isDyck_pair
  have hservice : IsDyck [U, D, U, U, D, D, U, D, U, D, U, D] :=
    isDyck_pair.append (hstub.append (isDyck_pair.append isDyck_pair))
  have hservices : IsDyck (d.service.flatMap fun srv => [U, D, U, U, D, D, U, D, U, D, U, D] ++
      srv.method.flatMap fun _ => [U, U, D, D, U, D]) :=
    .flatMap fun _ _ => hservice.append (.flatMap fun _ _ => hstub)
  rw [source, (writeSource_writes h).braced_iff, isDyck_package hservices, Braced,
    balanced_iff (by decide), braces]

/-- The brace of a file without a package stays open, whatever stands in it. -/
theorem bracedFiles_iff (filename : String) (h : ∀ srv ∈ d.service, NamesFree srv) :
    BracedFiles filename d ↔
      d.package ≠ "" ∧ Braced (splitext filename ++ d.package).toList := by
  have hheader := header_braced_iff h (splitext filename)
  have hsource := source_braced_iff h (splitext filename)
  constructor
  · rintro ⟨hfiles, -, -⟩
    exact hheader.mp (hfiles ⟨splitext filename ++ ".rpc.h", _⟩ List.mem_cons_self)
  · intro hpackage
    refine ⟨?_, (writeHeader_writes h).idt, (writeSource_writes h).idt⟩
    intro f hf
    obtain rfl | rfl : f = _ ∨ f = _ := by simpa [gen] using hf
    · exact hheader.mpr hpackage
    · exact hsource.mpr hpackage

def echoService (scope : String) : ServiceDescriptorProto :=
  ⟨"EchoService", [⟨"Echo", scope ++ "EchoRequest", scope ++ "EchoResponse"⟩]⟩

theorem echoService_names {scope : String} (hinput : BraceFree (lastPart (scope ++ "EchoRequest")))
    (houtput : BraceFree (lastPart (scope ++ "EchoResponse"))) : NamesFree (echoService scope) := by
  have hservice : BraceFree "EchoService" := by decide
  have hmethod : BraceFree "Echo" := by decide
  refine ⟨hservice, fun m hm => ?_⟩
  obtain rfl := List.mem_singleton.mp hm
  exact ⟨hmethod, hinput, houtput⟩

/-- `echo.proto` of the tests. -/
def echo : FileDescriptorProto := ⟨"echo.proto", "Echo", [], [echoService ".Echo."]⟩

theorem bracedFiles_iff_echo : BracedFiles "echo.proto" echo := by
  refine (bracedFiles_iff "echo.proto" ?_).mpr ⟨by decide, ?_⟩
  · intro srv hsrv
    obtain rfl := List.mem_singleton.mp hsrv
    exact echoService_names (by decide) (by decide)
  · have hstem : splitext "echo.proto" = "echo" := by decide
    rw [hstem, Braced, balanced_iff (by decide)]
    exact isDyck_nil

/-- Without its package. -/
def plainEcho : FileDescriptorProto := ⟨"echo.proto", "", [], [echoService "."]⟩

theorem package_missing : (∀ srv ∈ plainEcho.service, NamesFree srv) ∧
    ¬ Braced (header (splitext "echo.proto") plainEcho) ∧
      ¬ Braced (source (splitext "echo.proto") plainEcho) := by
  have hfree : ∀ srv ∈ plainEcho.service, NamesFree srv := by
    intro srv hsrv
    obtain rfl := List.mem_singleton.mp hsrv
    exact echoService_names (by decide) (by decide)
  refine ⟨hfree, fun hheader => ?_, fun hsource => ?_⟩
  · exact ((header_braced_iff hfree _).mp hheader).1 rfl
  · exact ((source_braced_iff hfree _).mp hsource).1 rfl

end Files

end Ucorf.ProtocGenBraces
