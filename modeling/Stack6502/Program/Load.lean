import Stack6502.Program.Source

/-!
# Loading programs

A decoded program becomes a program if its launcher and types are known, its blocks have names,
and its addresses and arrays are integers.
-/
namespace Stack6502

inductive LoadFault
  | source (fault : SourceFault)
  | launcher (name : Text)
  | loadAddress
  | noName
  | unknownType (block decl type : Text)
  | array (handle : Int64)
  deriving DecidableEq, Repr

def SourceFault.message : SourceFault → Text
  | .document => "malformed document"
  | .instr line fault => "line " ++ Text.ofNat line ++ ": " ++ fault.message
  | .instrExpected line => "line " ++ Text.ofNat line ++ ": instruction string expected"
  | .scalarExpected line => "line " ++ Text.ofNat line ++ ": scalar expected"
  | .badNumber literal => Value.badNumber literal

def LoadFault.message : LoadFault → Text
  | .source fault => "decode: " ++ fault.message
  | .launcher name => Launcher.unknownMessage name
  | .loadAddress => "load address: integer expected"
  | .noName => "block : no name"
  | .unknownType block decl type =>
    "block " ++ block ++ ": decl " ++ decl ++ ": " ++ DataType.unknownMessage type
  | .array handle => "heap " ++ Text.ofInt handle.toInt ++ ": integer array expected"

/-- Whether the document itself was at fault. -/
def LoadFault.isDocument (f : LoadFault) : Bool := f == .source .document

namespace Load

def launcher (name : Text) : Except LoadFault (Coded Launcher) :=
  if name.isEmpty then .ok (.known .basic)
  else match Launcher.parse? name with
    | some l => .ok (.known l)
    | none => .error (.launcher name)

def loadAddress : Option Value → Except LoadFault Int64
  | none => .ok 0
  | some (.int v) => .ok v
  | some (.float _) => .error .loadAddress

/-- The address of a block. A float counts as none. -/
def blockAddress : Option Value → Int64
  | some (.int v) => v
  | _ => 0

def decl (block : Text) (d : DeclSource) : Except LoadFault Decl :=
  match DataType.parse? d.type with
  | none => .error (.unknownType block d.name d.type)
  | some type => .ok ⟨d.name, .known type, d.value, d.heap, d.isConst⟩

/-- A block is its own scope unless it names another. -/
def block (b : BlockSource) : Except LoadFault Block :=
  if b.name.isEmpty then .error .noName
  else do
    let decls ← b.decls.mapM (decl b.name)
    let short := if b.short.isEmpty then b.name else b.short
    return ⟨b.name, short, blockAddress b.address, decls, b.code.map (·.val)⟩

def arrayItem (handle : Int64) : Value → Except LoadFault Int64
  | .int v => .ok v
  | .float _ => .error (.array handle)

def payload (entry : Int64 × PayloadSource) : Except LoadFault (Int64 × Payload) := do
  let array ← entry.2.array.mapM (arrayItem entry.1)
  return (entry.1, ⟨entry.2.str, array, entry.2.floats⟩)

end Load

def ProgramSource.check (p : ProgramSource) : Except LoadFault (Program × Heap) := do
  let launcher ← Load.launcher p.launcher
  let load ← Load.loadAddress p.load
  let blocks ← p.blocks.mapM Load.block
  let heap ← p.heap.mapM Load.payload
  return (⟨p.name, launcher, load, blocks⟩, heap)

/-- The program and the heap of a document. -/
def Program.read [Decoder] (t : Text) : Except LoadFault (Program × Heap) := do
  let source ← (Decoder.decode t).mapError .source
  source.check

end Stack6502
