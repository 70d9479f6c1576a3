import Mathlib.Data.List.DropRight

/-!
# The plugin of protoc

`protoc-gen-rpc` writes two files for each file that it is told to generate: a header with
the classes of the services and a source with their methods. The writer `C` keeps the text
and the indentation.
-/
namespace Ucorf.ProtocGenRpc

abbrev Text := List Char

structure MethodDescriptorProto where
  name : String
  inputType : String
  outputType : String
  deriving DecidableEq, Repr

structure ServiceDescriptorProto where
  name : String
  method : List MethodDescriptorProto
  deriving DecidableEq, Repr

structure FileDescriptorProto where
  name : String
  package : String
  dependency : List String
  service : List ServiceDescriptorProto
  deriving DecidableEq, Repr

structure CodeGeneratorRequest where
  fileToGenerate : List String
  protoFile : List FileDescriptorProto
  deriving DecidableEq, Repr

/-- A file of the response. -/
structure File where
  name : String
  content : Text
  deriving DecidableEq, Repr

def indentContent : Text := "    ".toList

structure C where
  c : Text
  idt : Int

namespace C

def init : C := ⟨[], 0⟩

def it (w : C) : C := { w with idt := w.idt + 1 }

def itEnd (w : C) : C := { w with idt := w.idt - 1 }

def out (w : C) (info : String) : C := { w with c := w.c ++ info.toList }

def outline (w : C) (info : String) : C :=
  if info = "" then { w with c := w.c ++ ['\n'] }
  else
    { w with
      c := w.c ++ ((List.replicate w.idt.toNat indentContent).flatten ++ info.toList ++ ['\n']) }

def itf (w : C) : C := (w.outline "\x7b").it

def itfEnd (w : C) : C := w.itEnd.outline "\x7d"

end C

/-- `os.path.splitext(p)[0]`; dots at the front of the last component begin no extension. -/
def splitext (p : String) : String :=
  let base := p.toList.rtakeWhile (· ≠ '/')
  let root := (base.rdropWhile (· ≠ '.')).dropLast
  if '.' ∈ base ∧ root.any (· ≠ '.')
    then String.ofList (p.toList.rdropWhile (· ≠ '/') ++ root) else p

example : splitext "a.b/c.d.proto" = "a.b/c.d" := by decide

example : splitext "a.b/.proto" = "a.b/.proto" := by decide

/-- `s.split('.')[-1]`. -/
def lastPart (s : String) : String := String.ofList (s.toList.rtakeWhile (· ≠ '.'))

section Header

/-- A method of the service class. -/
def declareMethod (c : C) (method : MethodDescriptorProto) : C :=
  let mName := method.name
  let inputT := lastPart method.inputType
  let outputT := lastPart method.outputType
  c |>.outline "" |>.outline s!"virtual bool {mName}({inputT} & request, {outputT} & response) = 0;"

/-- The methods of the stub. -/
def declareStub (c : C) (method : MethodDescriptorProto) : C :=
  let mName := method.name
  let inputT := lastPart method.inputType
  let outputT := lastPart method.outputType
  c |>.outline ""
    |>.outline s!"virtual std::shared_ptr<{outputT}> {mName}({inputT} & request, boost_ec * ec = nullptr);"
    |>.outline "" |>.outline s!"virtual boost_ec {mName}({inputT} & request, {outputT} * response);"

/-- The service class up to its methods. -/
def openService (c : C) (srvName : String) : C :=
  c |>.outline s!"class Ucorf{srvName} : public Pb_Service, private {srvName}" |>.outline "\x7b"
    |>.outline "public:" |>.it |>.outline "virtual std::string name();" |>.outline ""
    |>.outline "virtual bool Call(int method_idx, Message & request, Message & response);"
    |>.outline "" |>.outline "virtual const ServiceDescriptor* GetDescriptor();"

/-- From its methods to those of the stub. -/
def openStub (c : C) (srvName : String) : C :=
  c |>.itEnd |>.outline "\x7d;" |>.outline ""
    |>.outline s!"class Ucorf{srvName}Stub : public Pb_ServiceStub" |>.outline "\x7b"
    |>.outline "public:" |>.it
    |>.outline s!"explicit Ucorf{srvName}Stub(Client * c);" |>.outline ""
    |>.outline "virtual std::string name();"

def closeStub (c : C) : C := c |>.itEnd |>.outline "\x7d;"

/-- The two classes of a service. -/
def declareService (c : C) (srv : ServiceDescriptorProto) : C :=
  let c := srv.method.foldl declareMethod (openService c srv.name)
  let c := srv.method.foldl declareStub (openStub c srv.name)
  closeStub c

/-- The package opens a namespace, and the brace comes without one too. -/
def openPackage (c : C) (package : String) : C :=
  (if package = "" then c else c.out s!"namespace {package}") |>.outline "" |>.outline "\x7b" |>.it

def closePackage (c : C) (package : String) : C :=
  (if package = "" then c.itEnd else c.itEnd.out "\x7d") |>.outline ""

def beginHeader (oriFilename : String) : C :=
  C.init |>.outline "#include <ucorf/pb_service.h>"
  |>.outline s!"#include \"{oriFilename}.pb.h\"" |>.outline ""

def useNamespaces (c : C) : C :=
  c |>.outline "using namespace ::google::protobuf;"
  |>.outline "using namespace ::ucorf;" |>.outline ""

/-- The writer of `*.rpc.h` at its end. -/
def writeHeader (oriFilename : String) (parameter : FileDescriptorProto) : C :=
  let c := useNamespaces (openPackage (beginHeader oriFilename) parameter.package)
  let c := parameter.service.foldl declareService c
  closePackage c parameter.package

/-- `*.rpc.h`. -/
def header (oriFilename : String) (parameter : FileDescriptorProto) : Text :=
  (writeHeader oriFilename parameter).c

end Header

section Source

/-- A case of the switch, with the number of the method. -/
def callMethod (ci : C × Nat) (method : MethodDescriptorProto) : C × Nat :=
  let (c, i) := ci
  let mName := method.name
  let inputT := lastPart method.inputType
  let outputT := lastPart method.outputType
  (c |>.outline s!"case {i}:" |>.it
    |>.outline s!"return {mName}(({inputT} &)request, ({outputT} &)response);" |>.itEnd,
    i + 1)

/-- The methods of the stub. -/
def defineStub (srvName : String) (c : C) (method : MethodDescriptorProto) : C :=
  let mName := method.name
  let inputT := lastPart method.inputType
  let outputT := lastPart method.outputType
  c |>.outline s!"std::shared_ptr<{outputT}> Ucorf{srvName}Stub::{mName}({inputT} & request, boost_ec * ec)"
    |>.itf
    |>.outline s!"std::shared_ptr<{outputT}> response = std::make_shared<{outputT}>();"
    |>.outline s!"boost_ec e = CallMethod(\"{mName}\", request, response.get());"
    |>.outline "if (ec) \x7b" |>.it |>.outline "if (e) *ec = e;" |>.outline "else ec->clear();"
    |>.itEnd |>.outline "\x7d"
    |>.outline "" |>.outline "return response;" |>.itfEnd |>.outline ""
    |>.outline s!"boost_ec Ucorf{srvName}Stub::{mName}({inputT} & request, {outputT} * response)"
    |>.itf |>.outline s!"return CallMethod(\"{mName}\", request, response);" |>.itfEnd |>.outline ""

def defineService (c : C) (srv : ServiceDescriptorProto) : C :=
  let srvName := srv.name
  let c := c |>.outline s!"std::string Ucorf{srvName}::name()" |>.itf
    |>.outline s!"return \"{srvName}\";" |>.itfEnd |>.outline ""
    |>.outline s!"bool Ucorf{srvName}::Call(int method_idx, Message & request, Message & response)"
    |>.itf |>.outline "switch (method_idx) \x7b" |>.it
  let (c, _) := srv.method.foldl callMethod (c, 0)
  let c := c |>.outline "default:" |>.it |>.outline "return false;" |>.itEnd |>.itEnd
    |>.outline "\x7d" |>.itfEnd |>.outline ""
    |>.outline s!"const ServiceDescriptor* Ucorf{srvName}::GetDescriptor()" |>.itf
    |>.outline s!"return {srvName}::GetDescriptor();" |>.itfEnd |>.outline ""
    |>.outline s!"Ucorf{srvName}Stub::Ucorf{srvName}Stub(Client * c)" |>.it
    |>.outline ": Pb_ServiceStub(c) \x7b\x7d" |>.itEnd |>.outline ""
    |>.outline s!"std::string Ucorf{srvName}Stub::name()" |>.itf
    |>.outline s!"return \"{srvName}\";" |>.itfEnd |>.outline ""
  srv.method.foldl (defineStub srvName) c

/-- The writer of `*.rpc.cc` at its end. -/
def writeSource (oriFilename : String) (parameter : FileDescriptorProto) : C :=
  let c := C.init |>.outline s!"#include \"{oriFilename}.rpc.h\"" |>.outline ""
  let c := openPackage c parameter.package
  let c := parameter.service.foldl defineService c
  closePackage c parameter.package

/-- `*.rpc.cc`. -/
def source (oriFilename : String) (parameter : FileDescriptorProto) : Text :=
  (writeSource oriFilename parameter).c

end Source

/-- `Gen`. -/
def gen (rsp : List File) (filename : String) (parameter : FileDescriptorProto) : List File :=
  let oriFilename := splitext filename
  rsp ++ [⟨oriFilename ++ ".rpc.h", header oriFilename parameter⟩,
    ⟨oriFilename ++ ".rpc.cc", source oriFilename parameter⟩]

/-- The main loop, which pairs the two lists by their positions; an `IndexError` ends it without a
response. -/
def response (genReq : CodeGeneratorRequest) : Option (List File) :=
  (List.range genReq.fileToGenerate.length).foldlM (fun rsp idx => do
    let filename ← genReq.fileToGenerate[idx]?
    let parameter ← genReq.protoFile[idx]?
    return gen rsp filename parameter) []

end Ucorf.ProtocGenRpc
