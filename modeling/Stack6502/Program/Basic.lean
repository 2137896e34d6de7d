import Stack6502.Program.DataType
import Stack6502.Program.Instr

/-!
# Programs

A program is a list of blocks, each a scope of its own with declarations and code. Texts and
arrays of declarations are kept apart, in a heap.
-/
namespace Stack6502

structure Decl where
  name : Text
  type : Coded DataType
  value : Option Value
  /-- The handle of the payload, zero for none. -/
  heap : Int64
  isConst : Bool
  deriving DecidableEq, Repr

structure Block where
  name : Text
  /-- The name of the scope in the assembly. -/
  short : Text
  /-- Where the block must stand, zero for anywhere. -/
  address : Int64
  decls : List Decl
  code : List Instr
  deriving DecidableEq, Repr

structure Program where
  name : Text
  launcher : Coded Launcher
  /-- The load address, zero for the launcher's own. -/
  load : Int64
  blocks : List Block
  deriving DecidableEq, Repr

structure Payload where
  str : Text
  array : List Int64
  floats : List Double
  deriving DecidableEq, Repr

/-- Payloads by handle. -/
abbrev Heap := List (Int64 × Payload)

def Heap.find? (heap : Heap) (handle : Int64) : Option Payload := heap.lookup handle

def Block.isPinned (b : Block) : Bool := b.address != 0

def Block.decl? (b : Block) (name : Text) : Option Decl := b.decls.find? (·.name == name)

def Program.block? (p : Program) (name : Text) : Option Block := p.blocks.find? (·.name == name)

end Stack6502
