import Stack6502.Program.Opcode
import Stack6502.Program.Value

/-!
# Instructions

An instruction has an opcode, up to two values and up to two names; an empty name is an absent
one. `fault?` tells whether the operand its opcode needs is there, `ref?` which storage it touches.
-/
namespace Stack6502

structure Instr where
  op : Coded Opcode
  arg : Option Value := none
  arg2 : Option Value := none
  sym : Text := []
  sym2 : Text := []
  deriving DecidableEq, Repr

/-- Storage that an instruction reads or writes. -/
inductive Ref
  | var (name : Text)
  | mem (address : Int64)
  deriving DecidableEq, Repr

inductive OperandFault
  | unknownOpcode (n : Int)
  | missing (op : Opcode)
  deriving DecidableEq, Repr

def OperandFault.message : OperandFault → Text
  | .unknownOpcode n => "bad opcode: " ++ Text.ofInt n
  | .missing op => op.name ++ ": missing operand"

namespace Instr

def is (x : Instr) (op : Opcode) : Bool := x.op == .known op

def isLabel (x : Instr) : Bool := x.is .label

/-- The integer argument. -/
def int? (x : Instr) : Option Int64 := x.arg.bind Value.int?

def hasOperand (x : Instr) : OperandShape → Bool
  | .none => true
  | .int => x.int?.isSome
  | .number => x.arg.isSome
  | .name => !x.sym.isEmpty
  | .target => !x.sym.isEmpty || x.int?.isSome

/-- What keeps the instruction from being lowered, if anything. -/
def fault? (x : Instr) : Option OperandFault :=
  match x.op with
  | .stray n => some (.unknownOpcode n)
  | .known op => if x.hasOperand op.operand then none else some (.missing op)

def isComplete (x : Instr) : Bool := x.fault?.isNone

/-- The storage an instruction names: a variable, an array, or a memory address. -/
def ref? (x : Instr) : Option Ref :=
  match x.op with
  | .known .pushVarByte | .known .pushVarWord | .known .pushVarFloat
  | .known .popVarByte | .known .popVarWord | .known .popVarFloat
  | .known .incVarUB | .known .incVarB | .known .incVarUW | .known .incVarW | .known .incVarF
  | .known .decVarUB | .known .decVarB | .known .decVarUW | .known .decVarW | .known .decVarF
  | .known .readIndexedVarByte | .known .readIndexedVarWord | .known .readIndexedVarFloat
  | .known .writeIndexedVarByte | .known .writeIndexedVarWord | .known .writeIndexedVarFloat =>
    if x.sym.isEmpty then none else some (.var x.sym)
  | .known .pushMemB | .known .pushMemUB | .known .pushMemW | .known .pushMemUW
  | .known .pushMemFloat | .known .popMemByte | .known .popMemWord | .known .popMemFloat =>
    x.int?.map .mem
  | _ => none

/-- Both instructions touch the same storage. -/
def sameRef (x y : Instr) : Bool :=
  match x.ref?, y.ref? with
  | some r, some s => r == s
  | _, _ => false

end Instr

end Stack6502
