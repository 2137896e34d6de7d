import Stack6502.Program.Coded
import Stack6502.Number.IntLiteral
import Stack6502.Text.Case

/-!
# Opcodes

The operations of the stack machine, their names, and the shape of the operand each one needs.
An opcode's number is its place in the list of all of them.
-/
namespace Stack6502

inductive Opcode
  | label | line | nop | terminate | sec | clc | sei | cli | jump | call | ret | bcs | bcc | bneg
  | bpos | bvc | bvs | bz | bnz | rsave | rrestore | inlineAssembly | syscall | breakpoint
  | pushByte | pushWord | pushFloat | pushVarByte | pushVarWord | pushVarFloat | pushMemB
  | pushMemUB | pushMemW | pushMemUW | pushMemFloat | popVarByte | popVarWord | popVarFloat
  | popMemByte | popMemWord | popMemFloat | discardByte | discardWord | discardFloat
  | readIndexedVarByte | readIndexedVarWord | readIndexedVarFloat | writeIndexedVarByte
  | writeIndexedVarWord | writeIndexedVarFloat | incVarUB | incVarB | incVarUW | incVarW | incVarF
  | decVarUB | decVarB | decVarUW | decVarW | decVarF | addUB | addB | addUW | addW | addF | subUB
  | subB | subUW | subW | subF | mulUB | mulB | mulUW | mulW | mulF | divUB | divB | divUW | divW
  | divF | negB | negW | negF | invByte | invWord | notByte | notWord | andByte | orByte | xorByte
  | andWord | orWord | xorWord | shlByte | shrByte | shlWord | shrWord | shl8Word | shr8Word
  | rolByte | rorByte | rolWord | rorWord | rol2Byte | ror2Byte | rol2Word | ror2Word | lessUB
  | lessB | lessUW | lessW | lessF | greaterUB | greaterB | greaterUW | greaterW | greaterF
  | lesseqUB | lesseqB | lesseqUW | lesseqW | lesseqF | greatereqUB | greatereqB | greatereqUW
  | greatereqW | greatereqF | equalByte | equalWord | equalF | notequalByte | notequalWord
  | notequalF | ub2uword | b2word | b2ub | ub2b | msb | lsb | ub2float | b2float | uw2float
  | w2float
  deriving DecidableEq, Repr, Inhabited

/-- The operand an opcode carries. -/
inductive OperandShape
  | none
  /-- An integer argument. -/
  | int
  /-- An argument of either kind. -/
  | number
  | name
  /-- A name or an integer argument. -/
  | target
  deriving DecidableEq, Repr

def OperandShape.code : OperandShape → Nat
  | .none => 0
  | .int => 1
  | .number => 2
  | .name => 3
  | .target => 4

namespace Opcode

def all : List Opcode :=
  [.label, .line, .nop, .terminate, .sec, .clc, .sei, .cli, .jump, .call, .ret, .bcs, .bcc, .bneg,
   .bpos, .bvc, .bvs, .bz, .bnz, .rsave, .rrestore, .inlineAssembly, .syscall, .breakpoint,
   .pushByte, .pushWord, .pushFloat, .pushVarByte, .pushVarWord, .pushVarFloat, .pushMemB,
   .pushMemUB, .pushMemW, .pushMemUW, .pushMemFloat, .popVarByte, .popVarWord, .popVarFloat,
   .popMemByte, .popMemWord, .popMemFloat, .discardByte, .discardWord, .discardFloat,
   .readIndexedVarByte, .readIndexedVarWord, .readIndexedVarFloat, .writeIndexedVarByte,
   .writeIndexedVarWord, .writeIndexedVarFloat, .incVarUB, .incVarB, .incVarUW, .incVarW, .incVarF,
   .decVarUB, .decVarB, .decVarUW, .decVarW, .decVarF, .addUB, .addB, .addUW, .addW, .addF, .subUB,
   .subB, .subUW, .subW, .subF, .mulUB, .mulB, .mulUW, .mulW, .mulF, .divUB, .divB, .divUW, .divW,
   .divF, .negB, .negW, .negF, .invByte, .invWord, .notByte, .notWord, .andByte, .orByte, .xorByte,
   .andWord, .orWord, .xorWord, .shlByte, .shrByte, .shlWord, .shrWord, .shl8Word, .shr8Word,
   .rolByte, .rorByte, .rolWord, .rorWord, .rol2Byte, .ror2Byte, .rol2Word, .ror2Word, .lessUB,
   .lessB, .lessUW, .lessW, .lessF, .greaterUB, .greaterB, .greaterUW, .greaterW, .greaterF,
   .lesseqUB, .lesseqB, .lesseqUW, .lesseqW, .lesseqF, .greatereqUB, .greatereqB, .greatereqUW,
   .greatereqW, .greatereqF, .equalByte, .equalWord, .equalF, .notequalByte, .notequalWord,
   .notequalF, .ub2uword, .b2word, .b2ub, .ub2b, .msb, .lsb, .ub2float, .b2float, .uw2float,
   .w2float]

theorem mem_all (op : Opcode) : op ∈ all := by
  cases op <;> decide

def number (op : Opcode) : Nat := op.ctorIdx

def name : Opcode → String
  | .label => "LABEL"
  | .line => "LINE"
  | .nop => "NOP"
  | .terminate => "TERMINATE"
  | .sec => "SEC"
  | .clc => "CLC"
  | .sei => "SEI"
  | .cli => "CLI"
  | .jump => "JUMP"
  | .call => "CALL"
  | .ret => "RETURN"
  | .bcs => "BCS"
  | .bcc => "BCC"
  | .bneg => "BNEG"
  | .bpos => "BPOS"
  | .bvc => "BVC"
  | .bvs => "BVS"
  | .bz => "BZ"
  | .bnz => "BNZ"
  | .rsave => "RSAVE"
  | .rrestore => "RRESTORE"
  | .inlineAssembly => "INLINE_ASSEMBLY"
  | .syscall => "SYSCALL"
  | .breakpoint => "BREAKPOINT"
  | .pushByte => "PUSH_BYTE"
  | .pushWord => "PUSH_WORD"
  | .pushFloat => "PUSH_FLOAT"
  | .pushVarByte => "PUSH_VAR_BYTE"
  | .pushVarWord => "PUSH_VAR_WORD"
  | .pushVarFloat => "PUSH_VAR_FLOAT"
  | .pushMemB => "PUSH_MEM_B"
  | .pushMemUB => "PUSH_MEM_UB"
  | .pushMemW => "PUSH_MEM_W"
  | .pushMemUW => "PUSH_MEM_UW"
  | .pushMemFloat => "PUSH_MEM_FLOAT"
  | .popVarByte => "POP_VAR_BYTE"
  | .popVarWord => "POP_VAR_WORD"
  | .popVarFloat => "POP_VAR_FLOAT"
  | .popMemByte => "POP_MEM_BYTE"
  | .popMemWord => "POP_MEM_WORD"
  | .popMemFloat => "POP_MEM_FLOAT"
  | .discardByte => "DISCARD_BYTE"
  | .discardWord => "DISCARD_WORD"
  | .discardFloat => "DISCARD_FLOAT"
  | .readIndexedVarByte => "READ_INDEXED_VAR_BYTE"
  | .readIndexedVarWord => "READ_INDEXED_VAR_WORD"
  | .readIndexedVarFloat => "READ_INDEXED_VAR_FLOAT"
  | .writeIndexedVarByte => "WRITE_INDEXED_VAR_BYTE"
  | .writeIndexedVarWord => "WRITE_INDEXED_VAR_WORD"
  | .writeIndexedVarFloat => "WRITE_INDEXED_VAR_FLOAT"
  | .incVarUB => "INC_VAR_UB"
  | .incVarB => "INC_VAR_B"
  | .incVarUW => "INC_VAR_UW"
  | .incVarW => "INC_VAR_W"
  | .incVarF => "INC_VAR_F"
  | .decVarUB => "DEC_VAR_UB"
  | .decVarB => "DEC_VAR_B"
  | .decVarUW => "DEC_VAR_UW"
  | .decVarW => "DEC_VAR_W"
  | .decVarF => "DEC_VAR_F"
  | .addUB => "ADD_UB"
  | .addB => "ADD_B"
  | .addUW => "ADD_UW"
  | .addW => "ADD_W"
  | .addF => "ADD_F"
  | .subUB => "SUB_UB"
  | .subB => "SUB_B"
  | .subUW => "SUB_UW"
  | .subW => "SUB_W"
  | .subF => "SUB_F"
  | .mulUB => "MUL_UB"
  | .mulB => "MUL_B"
  | .mulUW => "MUL_UW"
  | .mulW => "MUL_W"
  | .mulF => "MUL_F"
  | .divUB => "DIV_UB"
  | .divB => "DIV_B"
  | .divUW => "DIV_UW"
  | .divW => "DIV_W"
  | .divF => "DIV_F"
  | .negB => "NEG_B"
  | .negW => "NEG_W"
  | .negF => "NEG_F"
  | .invByte => "INV_BYTE"
  | .invWord => "INV_WORD"
  | .notByte => "NOT_BYTE"
  | .notWord => "NOT_WORD"
  | .andByte => "AND_BYTE"
  | .orByte => "OR_BYTE"
  | .xorByte => "XOR_BYTE"
  | .andWord => "AND_WORD"
  | .orWord => "OR_WORD"
  | .xorWord => "XOR_WORD"
  | .shlByte => "SHL_BYTE"
  | .shrByte => "SHR_BYTE"
  | .shlWord => "SHL_WORD"
  | .shrWord => "SHR_WORD"
  | .shl8Word => "SHL8_WORD"
  | .shr8Word => "SHR8_WORD"
  | .rolByte => "ROL_BYTE"
  | .rorByte => "ROR_BYTE"
  | .rolWord => "ROL_WORD"
  | .rorWord => "ROR_WORD"
  | .rol2Byte => "ROL2_BYTE"
  | .ror2Byte => "ROR2_BYTE"
  | .rol2Word => "ROL2_WORD"
  | .ror2Word => "ROR2_WORD"
  | .lessUB => "LESS_UB"
  | .lessB => "LESS_B"
  | .lessUW => "LESS_UW"
  | .lessW => "LESS_W"
  | .lessF => "LESS_F"
  | .greaterUB => "GREATER_UB"
  | .greaterB => "GREATER_B"
  | .greaterUW => "GREATER_UW"
  | .greaterW => "GREATER_W"
  | .greaterF => "GREATER_F"
  | .lesseqUB => "LESSEQ_UB"
  | .lesseqB => "LESSEQ_B"
  | .lesseqUW => "LESSEQ_UW"
  | .lesseqW => "LESSEQ_W"
  | .lesseqF => "LESSEQ_F"
  | .greatereqUB => "GREATEREQ_UB"
  | .greatereqB => "GREATEREQ_B"
  | .greatereqUW => "GREATEREQ_UW"
  | .greatereqW => "GREATEREQ_W"
  | .greatereqF => "GREATEREQ_F"
  | .equalByte => "EQUAL_BYTE"
  | .equalWord => "EQUAL_WORD"
  | .equalF => "EQUAL_F"
  | .notequalByte => "NOTEQUAL_BYTE"
  | .notequalWord => "NOTEQUAL_WORD"
  | .notequalF => "NOTEQUAL_F"
  | .ub2uword => "UB2UWORD"
  | .b2word => "B2WORD"
  | .b2ub => "B2UB"
  | .ub2b => "UB2B"
  | .msb => "MSB"
  | .lsb => "LSB"
  | .ub2float => "UB2FLOAT"
  | .b2float => "B2FLOAT"
  | .uw2float => "UW2FLOAT"
  | .w2float => "W2FLOAT"

def operand : Opcode → OperandShape
  | .pushByte | .pushWord | .syscall | .pushMemB | .pushMemUB | .pushMemW | .pushMemUW
  | .pushMemFloat | .popMemByte | .popMemWord | .popMemFloat => .int
  | .pushFloat => .number
  | .label | .pushVarByte | .pushVarWord | .pushVarFloat | .popVarByte | .popVarWord
  | .popVarFloat | .readIndexedVarByte | .readIndexedVarWord | .readIndexedVarFloat
  | .writeIndexedVarByte | .writeIndexedVarWord | .writeIndexedVarFloat | .incVarUB | .incVarB
  | .incVarUW | .incVarW | .decVarUB | .decVarB | .decVarUW | .decVarW => .name
  | .jump | .call | .bcs | .bcc | .bneg | .bpos | .bvc | .bvs | .bz | .bnz | .incVarF
  | .decVarF => .target
  | _ => .none

def isBranch : Opcode → Bool
  | .bcs | .bcc | .bneg | .bpos | .bvc | .bvs | .bz | .bnz => true
  | _ => false

end Opcode

namespace Coded

def ofOpcodeNumber (n : Int) : Coded Opcode := ofIndex Opcode.all n

def opcodeNumber : Coded Opcode → Int
  | .known op => op.number
  | .stray n => n

def opcodeName : Coded Opcode → Text
  | .known op => op.name
  | .stray _ => "OPCODE(?)"

/-- The library routine that carries out an operation is its name in lower case. -/
def routine (op : Coded Opcode) : Text := op.opcodeName.map IntLiteral.lowerByte

def operand : Coded Opcode → OperandShape
  | .known op => op.operand
  | .stray _ => .none

def isBranch : Coded Opcode → Bool
  | .known op => op.isBranch
  | .stray _ => false

end Coded

/-- An opcode by its name in any case. -/
def Opcode.parse? (t : Text) : Option Opcode :=
  let name := t.upper
  Opcode.all.find? fun op => Text.ofString op.name == name

end Stack6502
