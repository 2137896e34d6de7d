import Stack6502.Emit.Assembly
import Stack6502.File.Tree
import Stack6502.Program.Load

/-!
# Generating files

A program file is decoded, and its assembly is written under the program's name into a directory.
Nothing is written if anything fails before.
-/
namespace Stack6502

/-- Why a program file cannot be read. -/
inductive InputFault
  | read (fault : FileFault)
  | load (name : Text) (fault : LoadFault)
  deriving DecidableEq, Repr

inductive GenerateFault
  | input (fault : InputFault)
  | assembly (program : Text) (fault : AssemblyFault)
  | create (program : Text) (fault : FileFault)
  deriving DecidableEq, Repr

def InputFault.message : InputFault → Text
  | .read fault => "read: " ++ fault.message
  | .load name fault => name ++ ": " ++ fault.message

def GenerateFault.message : GenerateFault → Text
  | .input fault => "load: " ++ fault.message
  | .assembly program fault => "program " ++ program ++ ": " ++ fault.message
  | .create program fault => "program " ++ program ++ ": create: " ++ fault.message

variable {m : Type → Type} [Monad m] [FileAccess m] [Decoder]

def readProgram (name : Text) : m (Except InputFault (Program × Heap)) := do
  match ← FileAccess.read name with
  | .error fault => return .error (.read fault)
  | .ok text => return (Program.read text).mapError (.load name)

/-- The path written, or why there is none, and what was counted once the program was read. -/
structure Generated where
  result : Except GenerateFault Text
  tally : Option Tally

def outputPath (dir : Text) (p : Program) : Text := Path.join dir (p.name ++ ".asm")

def generateFile (opts : Options) (dir name : Text) : m Generated := do
  match ← readProgram name with
  | .error fault => return ⟨.error (.input fault), none⟩
  | .ok (p, heap) =>
    let (result, session) := (p.assemble opts heap).run .start
    let tally := some session.tally
    match result with
    | .error fault => return ⟨.error (.assembly p.name fault), tally⟩
    | .ok text =>
      match ← FileAccess.write (outputPath dir p) text with
      | .error fault => return ⟨.error (.create p.name fault), tally⟩
      | .ok () => return ⟨.ok (outputPath dir p), tally⟩

end Stack6502
