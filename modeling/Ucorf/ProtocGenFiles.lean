import Mathlib.Data.List.Nodup
import Mathlib.Data.List.Perm.Subperm
import Ucorf.PrefixCodes
import Ucorf.ProtocGenRpc

/-!
# The files of the plugin

The main loop of the plugin takes the descriptor that stands where the name stands, although
`proto_file` has the imported files too. What is written shows which descriptor it was
written from, as far as it has been looked at.
-/
namespace Ucorf.ProtocGenFiles

open Ucorf.PrefixCodes
open Ucorf.ProtocGenRpc

/-- What `Gen` looks at of a method. -/
def methodView (m : MethodDescriptorProto) : String × String × String :=
  (m.name, lastPart m.inputType, lastPart m.outputType)

def serviceView (srv : ServiceDescriptorProto) : String × List (String × String × String) :=
  (srv.name, srv.method.map methodView)

/-- The package, the services and their methods. -/
def fileView (d : FileDescriptorProto) : String × List (String × List (String × String × String)) :=
  (d.package, d.service.map serviceView)

/-- A letter of a name, or the dot of a qualified one. -/
def NameChar (c : Char) : Prop := c.isAlphanum = true ∨ c = '_' ∨ c = '.'

instance (c : Char) : Decidable (NameChar c) := inferInstanceAs (Decidable (_ ∨ _ ∨ _))

def Named (s : String) : Prop := ∀ c ∈ s.toList, NameChar c

instance (s : String) : Decidable (Named s) := List.decidableBAll NameChar s.toList

structure WellNamed (d : FileDescriptorProto) : Prop where
  package : Named d.package
  service : ∀ srv ∈ d.service, Named srv.name
  method : ∀ srv ∈ d.service, ∀ m ∈ srv.method, Named m.name ∧
    Named m.inputType ∧ Named m.outputType

/-- A request as protoc sends it. -/
structure Sent (genReq : CodeGeneratorRequest) : Prop where
  distinct : (genReq.protoFile.map FileDescriptorProto.name).Nodup
  subset : ∀ name ∈ genReq.fileToGenerate, ∃ d ∈ genReq.protoFile, d.name = name
  imports : ∀ pre d post, genReq.protoFile = pre ++ d :: post →
    ∀ i ∈ d.dependency, ∃ e ∈ pre, e.name = i
  wellNamed : ∀ d ∈ genReq.protoFile, WellNamed d

/-- Each file that is to be generated has its two files in the response, written from the
descriptor of its name. -/
def Generated (genReq : CodeGeneratorRequest) (rsp : List File) : Prop :=
  ∀ name ∈ genReq.fileToGenerate, ∀ d ∈ genReq.protoFile, d.name = name →
    rsp.filter (fun f => f.name = splitext name ++ ".rpc.h") =
      [⟨splitext name ++ ".rpc.h", header (splitext name) d⟩] ∧
    rsp.filter (fun f => f.name = splitext name ++ ".rpc.cc") =
      [⟨splitext name ++ ".rpc.cc", source (splitext name) d⟩]

/-- The names without their extensions are distinct, and the descriptor at the position of
each name has the package, the services and the methods of the one that it names. -/
def Aligned (genReq : CodeGeneratorRequest) : Prop :=
  (genReq.fileToGenerate.map splitext).Nodup ∧
  ∀ (idx : Nat) name d e, genReq.fileToGenerate[idx]? = some name →
  genReq.protoFile[idx]? = some d →
    e ∈ genReq.protoFile → e.name = name → fileView d = fileView e

section Writers

variable {α : Type} {t : Text} {k : Int} {info : String}

def line (k : Int) (info : String) : Text :=
  if info = "" then ['\n'] else (List.replicate k.toNat indentContent).flatten ++
    info.toList ++ ['\n']

/-- A writer only ever appends. -/
@[simp] theorem outline_mk : (C.mk t k).outline info = ⟨t ++ line k info, k⟩ := by
  rw [C.outline, line]
  split <;> rfl

@[simp] theorem it_mk : (C.mk t k).it = ⟨t, k + 1⟩ := rfl

@[simp] theorem itEnd_mk : (C.mk t k).itEnd = ⟨t, k - 1⟩ := rfl

@[simp] theorem out_mk : (C.mk t k).out info = ⟨t ++ info.toList, k⟩ := rfl

/-- At the indentation `k` the step adds the text of the element. -/
def Appends (k : Int) (f : C → α → C) (text : α → Text) : Prop :=
  ∀ t x, f ⟨t, k⟩ x = ⟨t ++ text x, k⟩

/-- A loop appends what its rounds append. -/
theorem Appends.foldl {f : C → α → C} {text : α → Text} (h : Appends k f text)
    (xs : List α) (t : Text) :
    xs.foldl f ⟨t, k⟩ = ⟨t ++ xs.flatMap text, k⟩ := by
  induction xs generalizing t with
  | nil => simp
  | cons x xs ih => rw [List.foldl_cons, h, ih, List.flatMap_cons, List.append_assoc]

def methodText (m : MethodDescriptorProto) : Text := (declareMethod ⟨[], 2⟩ m).c

/-- A method of the service class appends its text. -/
theorem appends_method : Appends 2 declareMethod methodText := by
  intro t m
  simp [methodText, declareMethod]

def stubText (m : MethodDescriptorProto) : Text := (declareStub ⟨[], 2⟩ m).c

theorem appends_stub : Appends 2 declareStub stubText := by
  intro t m
  simp [stubText, declareStub]

def classText (srvName : String) : Text := (openService ⟨[], 1⟩ srvName).c

theorem openService_mk (t : Text) (srvName : String) :
    openService ⟨t, 1⟩ srvName = ⟨t ++ classText srvName, 2⟩ := by
  simp [classText, openService]

def stubClassText (srvName : String) : Text := (openStub ⟨[], 2⟩ srvName).c

theorem openStub_mk (t : Text) (srvName : String) :
    openStub ⟨t, 2⟩ srvName = ⟨t ++ stubClassText srvName, 2⟩ := by
  simp [stubClassText, openStub]

theorem closeStub_mk (t : Text) : closeStub ⟨t, 2⟩ = ⟨t ++ (closeStub ⟨[], 2⟩).c, 1⟩ := by
  simp [closeStub]

def serviceText (srv : ServiceDescriptorProto) : Text :=
  classText srv.name ++ (srv.method.flatMap methodText ++ (stubClassText srv.name ++
    (srv.method.flatMap stubText ++ (closeStub ⟨[], 2⟩).c)))

/-- A service appends the text of its two classes. -/
theorem appends_service : Appends 1 declareService serviceText := by
  intro t srv
  rw [declareService, openService_mk, appends_method.foldl, openStub_mk, appends_stub.foldl,
    closeStub_mk, serviceText]
  simp only [List.append_assoc]

end Writers

section Views

variable {oriFilename : String} {d e : FileDescriptorProto}

/-- What is written of a method: its name and the last parts of its types. -/
theorem methodView_eq {m m' : MethodDescriptorProto} : methodView m = methodView m' ↔
    m.name = m'.name ∧ lastPart m.inputType = lastPart m'.inputType ∧
      lastPart m.outputType = lastPart m'.outputType := by
  simp only [methodView, Prod.mk.injEq]

/-- Nothing else of a method is written. -/
theorem declareMethod_view (c : C) (m m' : MethodDescriptorProto)
    (h : methodView m = methodView m') :
    declareMethod c m = declareMethod c m' := by
  obtain ⟨hname, hin, hout⟩ := methodView_eq.mp h
  simp only [declareMethod, hname, hin, hout]

theorem declareStub_view (c : C) (m m' : MethodDescriptorProto) (h : methodView m = methodView m') :
    declareStub c m = declareStub c m' := by
  obtain ⟨hname, hin, hout⟩ := methodView_eq.mp h
  simp only [declareStub, hname, hin, hout]

theorem callMethod_view (ci : C × Nat) (m m' : MethodDescriptorProto)
    (h : methodView m = methodView m') :
    callMethod ci m = callMethod ci m' := by
  obtain ⟨hname, hin, hout⟩ := methodView_eq.mp h
  simp only [callMethod, hname, hin, hout]

theorem defineStub_view (srvName : String) (c : C) (m m' : MethodDescriptorProto)
    (h : methodView m = methodView m') :
    defineStub srvName c m = defineStub srvName c m' := by
  obtain ⟨hname, hin, hout⟩ := methodView_eq.mp h
  simp only [defineStub, hname, hin, hout]

theorem declareService_view (c : C) (srv srv' : ServiceDescriptorProto)
    (h : serviceView srv = serviceView srv') :
    declareService c srv = declareService c srv' := by
  obtain ⟨hname, hmethods⟩ := Prod.mk.inj h
  simp only [declareService, hname, foldl_view declareMethod_view hmethods,
    foldl_view declareStub_view hmethods]

/-- Nor is anything else of a service. -/
theorem defineService_view (c : C) (srv srv' : ServiceDescriptorProto)
    (h : serviceView srv = serviceView srv') :
    defineService c srv = defineService c srv' := by
  obtain ⟨hname, hmethods⟩ := Prod.mk.inj h
  simp only [defineService, hname, foldl_view callMethod_view hmethods,
    foldl_view (defineStub_view _) hmethods]

/-- `Gen` looks at nothing else. -/
theorem header_of_view (h : fileView d = fileView e) :
    header oriFilename d = header oriFilename e := by
  obtain ⟨hpackage, hservices⟩ := Prod.mk.inj h
  simp only [header, writeHeader, hpackage, foldl_view declareService_view hservices]

/-- Files that are seen alike give one source. -/
theorem source_of_view (h : fileView d = fileView e) :
    source oriFilename d = source oriFilename e := by
  obtain ⟨hpackage, hservices⟩ := Prod.mk.inj h
  simp only [source, writeSource, hpackage, foldl_view defineService_view hservices]

end Views

section Texts

theorem line_eq {k : Int} {info : String} {s : Text} (h : info.toList = s) (hs : s ≠ []) :
    line k info = (List.replicate k.toNat indentContent).flatten ++ s ++ ['\n'] := by
  rw [line, if_neg, h]
  rintro rfl
  exact hs h.symm

/-- The text of a method, cut where its names stand. -/
theorem methodText_eq (m : MethodDescriptorProto) : methodText m =
    '\n' :: ((List.replicate 2 indentContent).flatten ++
      ("virtual bool ".toList ++ (m.name.toList ++ '(' ::
      ((lastPart m.inputType).toList ++ ' ' ::
        ("& request, ".toList ++ ((lastPart m.outputType).toList ++
        ' ' :: "& response) = 0;\n".toList)))))) := by
  have hinfo (a b c : String) : (s!"virtual bool {a}({b} & request, {c} & response) = 0;").toList =
      "virtual bool ".toList ++ (a.toList ++ '(' :: (b.toList ++ ' ' :: ("& request, ".toList ++
        (c.toList ++ ' ' :: "& response) = 0;".toList)))) := by
    simp only [String.toList_append, List.append_assoc]
    rfl
  simp only [methodText, declareMethod, outline_mk, line_eq (hinfo _ _ _) (by simp)]
  simp [line]

/-- The letters of a text are told from the other letters of a line. -/
theorem not_mem_of_named {s : String} {c : Char} (h : Named s) (hc : ¬ NameChar c) :
    c ∉ s.toList := fun hmem => hc (h c hmem)

/-- The last part of a name is one. -/
theorem named_lastPart {s : String} (h : Named s) : Named (lastPart s) := by
  intro c hc
  rw [lastPart, String.toList_ofList] at hc
  exact h c ((List.rtakeWhile_suffix _ _).subset hc)

/-- A method is read off its declaration. -/
theorem method_code :
    PrefixCode (fun m : MethodDescriptorProto =>
      Named m.name ∧ Named m.inputType ∧ Named m.outputType) methodView methodText := by
  rintro m m' t u ⟨hname, hin, hout⟩ ⟨hname', hin', hout'⟩ h
  rw [methodText_eq, methodText_eq] at h
  simp only [List.cons_append, List.append_assoc, List.cons.injEq, true_and,
    List.append_cancel_left_eq] at h
  obtain ⟨h₁, h⟩ := word_ends (not_mem_of_named hname (by decide))
    (not_mem_of_named hname' (by decide)) h
  obtain ⟨h₂, h⟩ := word_ends (not_mem_of_named (named_lastPart hin) (by decide))
    (not_mem_of_named (named_lastPart hin') (by decide)) h
  rw [List.append_cancel_left_eq] at h
  obtain ⟨h₃, h⟩ := word_ends (not_mem_of_named (named_lastPart hout) (by decide))
    (not_mem_of_named (named_lastPart hout') (by decide)) h
  rw [List.append_cancel_left_eq] at h
  have hview : methodView m = methodView m' := methodView_eq.mpr
    ⟨String.toList_injective h₁, String.toList_injective h₂, String.toList_injective h₃⟩
  exact ⟨hview, h⟩

/-- A class begins with its name. -/
theorem classText_eq (srvName : String) : ∃ rest : Text, classText srvName =
    (List.replicate 1 indentContent).flatten ++
      ("class Ucorf".toList ++ (srvName.toList ++ ' ' :: rest)) := by
  have hinfo (a : String) : (s!"class Ucorf{a} : public Pb_Service, private {a}").toList =
      "class Ucorf".toList ++
        (a.toList ++ ' ' :: (": public Pb_Service, private ".toList ++ a.toList)) := by
    simp only [String.toList_append, List.append_assoc]
    rfl
  simp only [classText, openService, outline_mk, line_eq (hinfo _) (by simp), List.append_assoc,
    List.nil_append, it_mk, List.cons_append]
  exact ⟨_, rfl⟩

theorem stubClassText_eq (srvName : String) :
    ∃ rest : Text, stubClassText srvName = ' ' :: rest := by
  simp only [stubClassText, openStub, outline_mk, List.append_assoc, List.nil_append,
    itEnd_mk, it_mk]
  exact ⟨_, rfl⟩

/-- A method begins on a new line, so the rest of a class shows where the methods end. -/
theorem methodText_head (m : MethodDescriptorProto) : (methodText m).head? = some '\n' := by
  rw [methodText_eq]
  rfl

theorem serviceText_head (srv : ServiceDescriptorProto) : (serviceText srv).head? = some ' ' := by
  obtain ⟨rest, hrest⟩ := classText_eq srv.name
  rw [serviceText, hrest]
  rfl

theorem stubText_view (m m' : MethodDescriptorProto) (h : methodView m = methodView m') :
    stubText m = stubText m' := by
  rw [stubText, stubText, declareStub_view _ m m' h]

/-- A service is read off its two classes. -/
theorem service_code :
    PrefixCode (fun srv : ServiceDescriptorProto => Named srv.name ∧
      ∀ m ∈ srv.method, Named m.name ∧ Named m.inputType ∧ Named m.outputType)
        serviceView serviceText := by
  rintro x y t u ⟨hx, hxs⟩ ⟨hy, hys⟩ h
  simp only [serviceText, List.append_assoc] at h
  have hname : x.name = y.name := by
    obtain ⟨rest, hrest⟩ := classText_eq x.name
    obtain ⟨rest', hrest'⟩ := classText_eq y.name
    simp only [hrest, hrest', List.append_assoc, List.append_cancel_left_eq, List.cons_append] at h
    have hword := word_ends (not_mem_of_named hx (by decide)) (not_mem_of_named hy (by decide)) h
    exact String.toList_injective hword.1
  rw [hname, List.append_cancel_left_eq] at h
  obtain ⟨rest, hstub⟩ := stubClassText_eq y.name
  rw [hstub, List.cons_append, List.cons_append] at h
  obtain ⟨hmethods, hrest⟩ := method_code.list methodText_head (by decide) (by decide) hxs hys h
  rw [List.cons.injEq, List.append_cancel_left_eq, flatMap_view stubText_view hmethods,
    List.append_cancel_left_eq, List.append_cancel_left_eq] at hrest
  exact ⟨by rw [serviceView, serviceView, hname, hmethods], hrest.2⟩

def packageText (package : String) : Text := (openPackage ⟨[], 0⟩ package).c

theorem openPackage_mk (t : Text) (package : String) :
    openPackage ⟨t, 0⟩ package = ⟨t ++ packageText package, 1⟩ := by
  simp only [packageText, openPackage]
  split <;> simp

def closeText (package : String) : Text := (closePackage ⟨[], 1⟩ package).c

theorem closePackage_mk (t : Text) (package : String) :
    closePackage ⟨t, 1⟩ package = ⟨t ++ closeText package, 0⟩ := by
  simp only [closeText, closePackage]
  split <;> simp

theorem useNamespaces_mk (t : Text) :
    useNamespaces ⟨t, 1⟩ = ⟨t ++ (useNamespaces ⟨[], 1⟩).c, 1⟩ := by
  simp [useNamespaces]

theorem beginHeader_mk (oriFilename : String) :
    beginHeader oriFilename = ⟨(beginHeader oriFilename).c, 0⟩ := by
  simp [beginHeader, C.init]

/-- A header is its parts, one after the other. -/
theorem header_eq (oriFilename : String) (d : FileDescriptorProto) :
    header oriFilename d = (beginHeader oriFilename).c ++ (packageText d.package ++
      ((useNamespaces ⟨[], 1⟩).c ++ (d.service.flatMap serviceText ++ closeText d.package))) := by
  rw [header, writeHeader, beginHeader_mk, openPackage_mk, useNamespaces_mk]
  dsimp only
  rw [appends_service.foldl, closePackage_mk]
  simp only [List.append_assoc]

theorem packageText_eq (package : String) :
    packageText package = if package = "" then '\n' :: line 0 "\x7b"
    else "namespace ".toList ++ (package.toList ++ '\n' :: line 0 "\x7b") := by
  have hinfo : (s!"namespace {package}").toList = "namespace ".toList ++ package.toList := by
    rw [String.toList_append]
    rfl
  simp only [packageText, openPackage]
  split
  · rfl
  · simp only [out_mk, outline_mk, it_mk, hinfo, List.nil_append, List.append_assoc]
    rfl

/-- The line of the package ends its name. -/
theorem package_code : PrefixCode Named id packageText := by
  intro p p' t u hp hp' h
  rw [packageText_eq, packageText_eq] at h
  by_cases hnil : p = "" <;> by_cases hnil' : p' = ""
  · rw [if_pos hnil, if_pos hnil', List.append_cancel_left_eq] at h
    exact ⟨hnil.trans hnil'.symm, h⟩
  · rw [if_pos hnil, if_neg hnil'] at h
    exact absurd (List.cons.inj h).1 (by decide)
  · rw [if_neg hnil, if_pos hnil'] at h
    exact absurd (List.cons.inj h).1 (by decide)
  · rw [if_neg hnil, if_neg hnil'] at h
    simp only [List.append_assoc, List.cons_append, List.append_cancel_left_eq] at h
    obtain ⟨hname, hrest⟩ := word_ends (not_mem_of_named hp (by decide))
      (not_mem_of_named hp' (by decide)) h
    rw [List.append_cancel_left_eq] at hrest
    exact ⟨String.toList_injective hname, hrest⟩

/-- Behind the services comes no space, with which each of them begins. -/
theorem closeText_eq (package : String) :
    ∃ (c : Char) (rest : Text), c ≠ ' ' ∧ closeText package = c :: rest := by
  simp only [closeText, closePackage]
  split
  · exact ⟨'\n', [], by decide, rfl⟩
  · exact ⟨'\x7d', ['\n'], by decide, rfl⟩

/-- The header shows all that `Gen` has looked at. -/
theorem header_view {oriFilename : String} {d e : FileDescriptorProto} (hd : WellNamed d)
    (he : WellNamed e) (h : header oriFilename d = header oriFilename e) :
    fileView d = fileView e := by
  rw [header_eq, header_eq, List.append_cancel_left_eq] at h
  obtain ⟨hpackage, h⟩ := package_code _ _ _ _ hd.package he.package h
  rw [List.append_cancel_left_eq] at h
  obtain ⟨c, rest, hc, hclose⟩ := closeText_eq d.package
  obtain ⟨c', rest', hc', hclose'⟩ := closeText_eq e.package
  rw [hclose, hclose'] at h
  have hservices :=
    (service_code.list serviceText_head hc hc'
      (fun srv hsrv => ⟨hd.service srv hsrv, hd.method srv hsrv⟩)
    (fun srv hsrv => ⟨he.service srv hsrv, he.method srv hsrv⟩) h).1
  rw [fileView, fileView, hservices]
  exact congrArg (fun package => (package, _)) hpackage

end Texts

section Responses

variable {genReq : CodeGeneratorRequest} {rsp : List File}

/-- What one round of the main loop adds. -/
def filesOf (p : String × FileDescriptorProto) : List File := gen [] p.1 p.2

/-- `Gen` appends the two files of its pair. -/
theorem gen_eq (rsp : List File) (filename : String) (parameter : FileDescriptorProto) :
    gen rsp filename parameter = rsp ++ filesOf (filename, parameter) := rfl

/-- The main loop appends the files of the pairs in order. -/
theorem rounds_eq (genReq : CodeGeneratorRequest) (n : Nat)
    (hn : n ≤ genReq.fileToGenerate.length) :
    (List.range n).foldlM (fun rsp idx => do
      let filename ← genReq.fileToGenerate[idx]?
      let parameter ← genReq.protoFile[idx]?
      return gen rsp filename parameter) [] =
    if n ≤ genReq.protoFile.length then
      some (((genReq.fileToGenerate.zip genReq.protoFile).take n).flatMap filesOf)
    else none := by
  induction n with
  | zero => simp
  | succ n ih =>
    rw [List.range_succ, List.foldlM_append, ih (Nat.le_of_succ_le hn)]
    have hname : genReq.fileToGenerate[n]? = some genReq.fileToGenerate[n] :=
      List.getElem?_eq_getElem hn
    by_cases hlt : n < genReq.protoFile.length
    · have hfile : genReq.protoFile[n]? = some genReq.protoFile[n] := List.getElem?_eq_getElem hlt
      have hzip : (genReq.fileToGenerate.zip genReq.protoFile)[n]? =
          some (genReq.fileToGenerate[n], genReq.protoFile[n]) := by
        rw [List.getElem?_zip_eq_some]
        exact ⟨hname, hfile⟩
      have hlt' : n + 1 ≤ genReq.protoFile.length := hlt
      rw [if_pos (Nat.le_of_lt hlt), if_pos hlt', List.take_add_one, hzip, List.flatMap_append]
      simp [hname, hfile, gen_eq]
    · have hfile : genReq.protoFile[n]? = none := List.getElem?_eq_none (Nat.not_lt.mp hlt)
      have hge : ¬ n + 1 ≤ genReq.protoFile.length := hlt
      rw [if_neg hge]
      split
      · simp [hname, hfile]
      · rfl

/-- The names and the descriptors by their positions. -/
theorem response_eq_some : response genReq = some rsp ↔
    genReq.fileToGenerate.length ≤ genReq.protoFile.length ∧
    rsp = (genReq.fileToGenerate.zip genReq.protoFile).flatMap filesOf := by
  rw [response, rounds_eq genReq _ (Nat.le_refl _)]
  have htake : (genReq.fileToGenerate.zip genReq.protoFile).take genReq.fileToGenerate.length =
      genReq.fileToGenerate.zip genReq.protoFile := by
    apply List.take_of_length_le
    rw [List.length_zip]
    exact Nat.min_le_left _ _
  rw [htake]
  split
  · rename_i hle
    rw [Option.some.injEq, eq_comm]
    exact (and_iff_right hle).symm
  · rename_i hle
    constructor
    · intro h
      cases h
    · intro h
      exact absurd h.1 hle

/-- The two kinds of files by their names. -/
theorem name_cc_ne_h (a b : String) : a ++ ".rpc.cc" ≠ b ++ ".rpc.h" := by
  intro h
  have hlast := congrArg (fun s : String => s.toList.getLast?) h
  simp at hlast

/-- The files with one of the two extensions that are called after `stem`. -/
theorem files_of {ext stem : String} {text : String → FileDescriptorProto → Text}
    (hext : ∀ p, (filesOf p).filter (fun f => f.name = stem ++ ext) =
      if splitext p.1 = stem then [⟨stem ++ ext, text stem p.2⟩] else [])
    (l : List (String × FileDescriptorProto)) :
    (l.flatMap filesOf).filter (fun f => f.name = stem ++ ext) =
      (l.filter fun p => splitext p.1 = stem).map fun p => ⟨stem ++ ext, text stem p.2⟩ := by
  induction l with
  | nil => rfl
  | cons p l ih =>
    rw [List.flatMap_cons, List.filter_append, hext, ih, List.filter_cons]
    by_cases hp : splitext p.1 = stem
    · simp [hp]
    · simp [hp]

/-- The headers of one name are those of the files with that stem. -/
theorem headers_of (l : List (String × FileDescriptorProto)) (stem : String) :
    (l.flatMap filesOf).filter (fun f => f.name = stem ++ ".rpc.h") =
      (l.filter fun p => splitext p.1 = stem).map fun p => ⟨stem ++ ".rpc.h", header stem p.2⟩ := by
  apply files_of
  intro p
  split
  · rename_i hp
    simp [filesOf, gen, hp]
  · rename_i hp
    simp [filesOf, gen, hp, name_cc_ne_h]

/-- So are the sources. -/
theorem sources_of (l : List (String × FileDescriptorProto)) (stem : String) :
    (l.flatMap filesOf).filter (fun f => f.name = stem ++ ".rpc.cc") =
      (l.filter fun p => splitext p.1 = stem).map fun p =>
      ⟨stem ++ ".rpc.cc", source stem p.2⟩ := by
  apply files_of
  intro p
  split
  · rename_i hp
    simp [filesOf, gen, hp, (name_cc_ne_h _ _).symm]
  · rename_i hp
    simp [filesOf, gen, hp, (name_cc_ne_h _ _).symm]

/-- The pairs of the main loop. -/
def pairs (genReq : CodeGeneratorRequest) : List (String × FileDescriptorProto) :=
  genReq.fileToGenerate.zip genReq.protoFile

/-- The lists are paired by position. -/
theorem mem_pairs {name : String} {d : FileDescriptorProto} : (name, d) ∈ pairs genReq ↔
    ∃ idx : Nat, genReq.fileToGenerate[idx]? = some name ∧ genReq.protoFile[idx]? = some d := by
  rw [pairs, List.mem_iff_getElem?]
  simp only [List.getElem?_zip_eq_some]

theorem pairs_names (h : genReq.fileToGenerate.length ≤ genReq.protoFile.length) :
    (pairs genReq).map Prod.fst = genReq.fileToGenerate := List.map_fst_zip h

/-- A stem is generated as often as it was asked for. -/
theorem count_stem (h : genReq.fileToGenerate.length ≤ genReq.protoFile.length) (stem : String) :
    (genReq.fileToGenerate.map splitext).count stem =
      ((pairs genReq).filter fun p => splitext p.1 = stem).length := by
  rw [← pairs_names h, List.map_map, List.count, List.countP_map, List.countP_eq_length_filter]
  rfl

/-- What the response has for a name, as far as the pairs tell. -/
theorem generated_pairs (hrsp : rsp = (pairs genReq).flatMap filesOf) : Generated genReq rsp ↔
    ∀ name ∈ genReq.fileToGenerate, ∀ d ∈ genReq.protoFile, d.name = name →
      (((pairs genReq).filter fun p => splitext p.1 = splitext name).map fun p =>
        File.mk (splitext name ++ ".rpc.h") (header (splitext name) p.2)) =
          [⟨splitext name ++ ".rpc.h", header (splitext name) d⟩] ∧
      (((pairs genReq).filter fun p => splitext p.1 = splitext name).map fun p =>
        File.mk (splitext name ++ ".rpc.cc") (source (splitext name) p.2)) =
          [⟨splitext name ++ ".rpc.cc", source (splitext name) d⟩] := by
  simp only [Generated, hrsp, headers_of, sources_of]

/-- No name is there twice, so there are as many descriptors as names. -/
theorem length_le_of_aligned (hsent : Sent genReq)
    (hnodup : (genReq.fileToGenerate.map splitext).Nodup) :
    genReq.fileToGenerate.length ≤ genReq.protoFile.length := by
  have hsubset : genReq.fileToGenerate ⊆ genReq.protoFile.map FileDescriptorProto.name := by
    intro name hname
    obtain ⟨d, hd, hdname⟩ := hsent.subset name hname
    exact List.mem_map.mpr ⟨d, hd, hdname⟩
  have hle := (List.Nodup.of_map splitext hnodup).subperm hsubset |>.length_le
  rwa [List.length_map] at hle

/-- Headers tell the descriptors apart, so each file was generated from its own one. -/
theorem aligned_of_generated (hsent : Sent genReq)
    (hle : genReq.fileToGenerate.length ≤ genReq.protoFile.length)
    (hgen : Generated genReq ((pairs genReq).flatMap filesOf)) : Aligned genReq := by
  have hpairs := (generated_pairs rfl).mp hgen
  constructor
  · rw [List.nodup_iff_count_le_one]
    intro stem
    by_cases hstem : stem ∈ genReq.fileToGenerate.map splitext
    · obtain ⟨name, hname, rfl⟩ := List.mem_map.mp hstem
      obtain ⟨d, hd, hdname⟩ := hsent.subset name hname
      have hlen := congrArg List.length (hpairs name hname d hd hdname).1
      rw [List.length_map, ← count_stem hle, List.length_singleton] at hlen
      exact Nat.le_of_eq hlen
    · rw [List.count_eq_zero.mpr hstem]
      exact Nat.zero_le 1
  · intro idx name d e hname hd he hename
    have hheaders := (hpairs name (List.mem_of_getElem? hname) e he hename).1
    have hmem : File.mk (splitext name ++ ".rpc.h") (header (splitext name) d) ∈
        [File.mk (splitext name ++ ".rpc.h") (header (splitext name) e)] := by
      rw [← hheaders]
      have hpair : (name, d) ∈ (pairs genReq).filter fun p => splitext p.1 = splitext name :=
        List.mem_filter.mpr ⟨mem_pairs.mpr ⟨idx, hname, hd⟩, by simp⟩
      exact List.mem_map.mpr ⟨(name, d), hpair, rfl⟩
    rw [List.mem_singleton, File.mk.injEq] at hmem
    exact header_view (hsent.wellNamed d (List.mem_of_getElem? hd)) (hsent.wellNamed e he) hmem.2

/-- Where the positions agree, every file is generated from its own descriptor. -/
theorem generated_of_aligned (haligned : Aligned genReq)
    (hle : genReq.fileToGenerate.length ≤ genReq.protoFile.length) :
    Generated genReq ((pairs genReq).flatMap filesOf) := by
  obtain ⟨hnodup, hviews⟩ := haligned
  refine (generated_pairs rfl).mpr fun name hname d hd hdname => ?_
  have hcount := List.count_eq_one_of_mem hnodup (List.mem_map_of_mem hname)
  rw [count_stem hle] at hcount
  obtain ⟨⟨name', d'⟩, hp⟩ := List.length_eq_one_iff.mp hcount
  have hmem : (name', d') ∈ (pairs genReq).filter fun p => splitext p.1 = splitext name := by
    rw [hp]
    exact List.mem_singleton_self _
  obtain ⟨hpair, hstem⟩ := List.mem_filter.mp hmem
  obtain ⟨idx, hidx, hidx'⟩ := mem_pairs.mp hpair
  obtain rfl : name' = name :=
    List.inj_on_of_nodup_map hnodup (List.mem_of_getElem? hidx) hname (of_decide_eq_true hstem)
  have hview := hviews idx name' d' d hidx hidx' hd hdname
  rw [hp, List.map_singleton, List.map_singleton, header_of_view hview, source_of_view hview]
  exact ⟨rfl, rfl⟩

/-- The files are generated from the right descriptors exactly when the descriptor at the
position of each name shows what the descriptor of that name shows. -/
theorem generated_iff (genReq : CodeGeneratorRequest) (hsent : Sent genReq) :
    (∃ rsp, response genReq = some rsp ∧ Generated genReq rsp) ↔ Aligned genReq := by
  constructor
  · rintro ⟨rsp, hrsp, hgen⟩
    obtain ⟨hle, rfl⟩ := response_eq_some.mp hrsp
    exact aligned_of_generated hsent hle hgen
  · intro haligned
    have hle := length_le_of_aligned hsent haligned.1
    exact ⟨_, response_eq_some.mpr ⟨hle, rfl⟩, generated_of_aligned haligned hle⟩

/-- A file without imports. -/
def single : CodeGeneratorRequest :=
  ⟨["a.proto"], [⟨"a.proto", "a", [], [⟨"S", [⟨"call", ".a.In", ".a.Out"⟩]⟩]⟩]⟩

theorem generated_iff_single : ∃ rsp, response single = some rsp ∧ Generated single rsp := by
  have hwellNamed : ∀ d ∈ single.protoFile, WellNamed d := by
    intro d hd
    obtain rfl := List.mem_singleton.mp hd
    exact ⟨by decide, by decide, by decide⟩
  refine (generated_iff single ⟨by decide, by decide, ?_, hwellNamed⟩).mpr ⟨by decide, ?_⟩
  · intro pre d post hsplit i hi
    have hmem : d ∈ single.protoFile := by simp [hsplit]
    obtain rfl := List.mem_singleton.mp hmem
    cases hi
  · intro idx name d e hname hd he hename
    rw [List.mem_singleton.mp he, List.mem_singleton.mp (List.mem_of_getElem? hd)]

/-- A file that imports another one. -/
def importing : CodeGeneratorRequest :=
  ⟨["a.proto"], [⟨"b.proto", "b", [], []⟩,
    ⟨"a.proto", "a", ["b.proto"], [⟨"S", [⟨"call", ".b.In", ".b.Out"⟩]⟩]⟩]⟩

theorem sent_importing : Sent importing := by
  refine ⟨by decide, by decide, ?_, ?_⟩
  · intro pre d post hsplit i hi
    cases pre with
    | nil =>
      obtain ⟨rfl, -⟩ := List.cons.inj hsplit
      cases hi
    | cons e pre =>
      obtain ⟨rfl, htail⟩ := List.cons.inj hsplit
      refine ⟨_, List.mem_cons_self, ?_⟩
      have hmem : d ∈ importing.protoFile.tail := by simp [importing, htail]
      obtain rfl := List.mem_singleton.mp hmem
      exact (List.mem_singleton.mp hi).symm
  · intro d hd
    rcases List.mem_pair.mp hd with rfl | rfl
    · exact ⟨by decide, by decide, by decide⟩
    · exact ⟨by decide, by decide, by decide⟩

/-- The files of `a.proto` are written from the descriptor of its import. -/
theorem import_generated_instead :
    Sent importing ∧ response importing = some (gen [] "a.proto" ⟨"b.proto", "b", [], []⟩) ∧
      ¬ ∃ rsp, response importing = some rsp ∧ Generated importing rsp := by
  refine ⟨sent_importing, rfl, ?_⟩
  rintro ⟨rsp, hrsp, hgen⟩
  obtain ⟨hle, rfl⟩ := response_eq_some.mp hrsp
  have haligned := aligned_of_generated sent_importing hle hgen
  have hview :=
    haligned.2 0 "a.proto" ⟨"b.proto", "b", [], []⟩ _ rfl rfl
      (List.mem_cons_of_mem _ List.mem_cons_self) rfl
  exact absurd (congrArg Prod.fst hview) (by decide)

end Responses

end Ucorf.ProtocGenFiles
