import Stack6502.Program.Instr
import Stack6502.Text.Blank

/-!
# Reading instructions

An instruction is written as its opcode and operands between blanks. Numbers fill the values in
order and names fill the names, however they interleave. Labels, source lines and inline assembly
take the rest of the line as their name.
-/
namespace Stack6502

inductive InstrFault
  | unknownOpcode (name : Text)
  | namelessLabel
  | tooManyNames (op : Opcode)
  | tooManyValues (op : Opcode)
  | badNumber (op : Opcode) (literal : Text)
  | operand (fault : OperandFault)
  deriving DecidableEq, Repr

namespace InstrFault

def unknownMessage (name : Text) : Text := "unknown opcode: " ++ name.quoted

def message : InstrFault → Text
  | .unknownOpcode name => unknownMessage name
  | .namelessLabel => "label without name"
  | .tooManyNames op => op.name ++ ": too many names"
  | .tooManyValues op => op.name ++ ": too many values"
  | .badNumber op literal => op.name ++ ": " ++ Value.badNumber literal
  | .operand fault => fault.message

end InstrFault

namespace Instr

/-- A word that starts like a number is one. -/
def startsNumber (word : Text) : Bool :=
  match word with
  | [] => false
  | b :: _ => IntLiteral.isDigit b || ("-+$%." : Text).contains b

def addName (op : Opcode) (x : Instr) (name : Text) : Except InstrFault Instr :=
  if x.sym.isEmpty then .ok { x with sym := name }
  else if x.sym2.isEmpty then .ok { x with sym2 := name }
  else .error (.tooManyNames op)

def addValue (op : Opcode) (x : Instr) (literal : Text) : Except InstrFault Instr :=
  match Value.parse? literal with
  | none => .error (.badNumber op literal)
  | some v =>
    match x.arg, x.arg2 with
    | none, _ => .ok { x with arg := some v }
    | some _, none => .ok { x with arg2 := some v }
    | some _, some _ => .error (.tooManyValues op)

/-- Fills in the operands one after another. -/
def addOperands (op : Opcode) : Instr → List Text → Except InstrFault Instr
  | x, [] => .ok x
  | x, word :: rest => do
    let x ← if startsNumber word then addValue op x word else addName op x word
    addOperands op x rest

def parseOperands (op : Opcode) (rest : Text) : Except InstrFault Instr := do
  let x ← addOperands op { op := .known op } rest.words
  match x.fault? with
  | some fault => .error (.operand fault)
  | none => .ok x

/-- The opcode ends at the first space. -/
def parse (t : Text) : Except InstrFault Instr :=
  let (name, rest) := t.trim.cut Text.space
  let rest := rest.getD []
  match Opcode.parse? name with
  | none => .error (.unknownOpcode name)
  | some .label =>
    let sym := rest.trim
    if sym.isEmpty then .error .namelessLabel else .ok { op := .known .label, sym }
  | some .line => .ok { op := .known .line, sym := rest.trim }
  | some .inlineAssembly => .ok { op := .known .inlineAssembly, sym := rest.dropIndent }
  | some op => parseOperands op rest

end Instr

end Stack6502
