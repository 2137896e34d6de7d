import Stack6502.Cbor
import Stack6502.Program.Instr

/-!
# The binary form of an instruction

A map of texts: the opcode's name and, under their keys, the operands that are present. The number
of pairs comes first, so it is counted before any of them is written.
-/
namespace Stack6502.Instr

def pairCount (x : Instr) : Nat :=
  1 + x.arg.isSome.toNat + x.arg2.isSome.toNat + (!x.sym.isEmpty).toNat + (!x.sym2.isEmpty).toNat

def appendValue (b key : Text) (value : Option Value) : Text :=
  match value with
  | some v => b ++ Cbor.pair key v.text
  | none => b

def appendName (b key name : Text) : Text :=
  if name.isEmpty then b else b ++ Cbor.pair key name

/-- `b` followed by the binary form. -/
def appendWire (b : Text) (x : Instr) : Text :=
  let b := b ++ Cbor.head .map x.pairCount
  let b := b ++ Cbor.pair "op" x.op.opcodeName
  let b := appendValue b "arg" x.arg
  let b := appendValue b "arg2" x.arg2
  let b := appendName b "sym" x.sym
  appendName b "sym2" x.sym2

def wire (x : Instr) : Text := appendWire [] x

end Stack6502.Instr
