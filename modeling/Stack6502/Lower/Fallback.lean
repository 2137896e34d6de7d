import Stack6502.Lower.InPlace
import Stack6502.Lower.Pattern

/-!
# One instruction at a time

Every opcode has code that works through the evaluation stack. The stack grows downwards from the
top of two pages, one for low and one for high bytes, and X points at the first free entry.
-/
namespace Stack6502

/-- Code for one instruction in the block whose scope is given. -/
abbrev Fallback :=
  (scope : Option Text) → Instr → Session → Except Defect (Option Code) × Session

namespace Fallback

open Asm

def plain (f : Instr → Option Code) : Fallback := fun _ x s => (.ok (f x), s)

def reading (f : Instr → Reading Code) : Fallback := fun _ x s => ((f x).run, s)

def lines (ls : List Line) : Fallback := plain fun _ => some [ls]

def each (ls : List Line) : Fallback := plain fun _ => some (Code.each ls)

/-- The name or the address an instruction gives. -/
def place? (x : Instr) : Option Place :=
  if x.sym.isEmpty then x.int?.map .address else some (.name x.sym)

/-- The block's own label is already there as the name of its scope. -/
def label : Fallback := fun scope x s =>
  if scope = some x.sym then (.ok (some []), s)
  else if x.sym.isEmpty then (.ok none, s)
  else (.ok (some [[.label x.sym]]), s)

def breakpoint : Fallback := fun _ _ s =>
  let n := s.breakpoints + 1
  (.ok (some [[.marked ("_tg_breakpoint_" ++ Text.ofNat n) .nop]]), { s with breakpoints := n })

def jump (m : Mnemonic) : Fallback := plain fun x =>
  (place? x).map fun p => [[.instr m (.direct p)]]

def routine : Fallback := plain fun x => some [[library x.op.routine]]

/-- A library routine that gets an address in A and Y. -/
def addressed (routine : Text) (p : Place) : Code :=
  Code.each [lda (.lowOf p), ldy (.highOf p), library routine]

def routineAt : Fallback := plain fun x => (place? x).map (addressed x.op.routine)

def floatAt (routine : Text) : Fallback := plain fun x => (place? x).map (addressed routine)

/-- Routines of the runtime library by call number, from 16 on. Smaller numbers exist only in the
simulator. -/
def syscalls : List String :=
  ["func_sin", "func_cos", "func_abs", "func_acos", "func_asin", "func_tan", "func_atan",
   "func_ln", "func_log2", "func_log10", "func_sqrt", "func_rad", "func_deg", "func_round",
   "func_floor", "func_ceil", "func_max", "func_min", "func_avg", "func_sum", "func_len",
   "func_any", "func_all", "func_rnd", "func_rndw", "func_rndf", "func_wrd", "func_uwrd"]

def syscall : Fallback := plain fun x => do
  let v ← x.int?
  let name ← if v < 16 then none else syscalls[(v - 16).toInt.toNat]?
  return [[library name]]

def pushByte : Fallback := reading fun x => do
  let v ← x.integer
  return Code.each [lda (lowByte v), sta (low 0), dex]

def pushWord : Fallback := reading fun x => do
  let v ← x.integer
  return Code.each [lda (lowByte v), sta (low 0), lda (highByte v), sta (high 0), dex]

def pushFloat : Fallback := fun _ x s =>
  match x.arg with
  | none => (.ok none, s)
  | some v =>
    let (label, pool) := s.pool.add v.toDouble
    (.ok (label.map fun l => addressed "push_float" (.name l)), { s with pool })

/-- A table of homes applied to the variable or register an instruction names. -/
def onVariable (table : Cell → Home → Option (List Line)) : Fallback := plain fun x =>
  if x.sym.isEmpty then none
  else (table (.named x.sym) (.ofName x.sym)).map ([·])

/-- A table of homes applied to the address an instruction gives. -/
def onMemory (table : Cell → Home → Option (List Line)) : Fallback := plain fun x => do
  let a ← x.int?
  let ls ← table (.memory a) .mem
  return [ls]

def onTop (width : Width) : Fallback := plain fun x => inPlace x.op width .top .var

def readByte : Fallback := plain fun x =>
  some (Code.each [ldy (low 1), lda (.byY (.name x.sym)), sta (low 1)])

def readWord : Fallback := plain fun x =>
  some (Code.each [lda (low 1), asl acc, tay, lda (.byY (.name x.sym)), sta (low 1),
    lda (.byY (.plus (.name x.sym) 1)), sta (high 1)])

def writeByte : Fallback := plain fun x =>
  some (Code.each [inx, ldy (low 0), inx, lda (low 0), sta (.byY (.name x.sym))])

def writeWord : Fallback := plain fun x =>
  some (Code.each [inx, lda (low 0), asl acc, tay, inx, lda (low 0), sta (.byY (.name x.sym)),
    lda (high 0), sta (.byY (.plus (.name x.sym) 1))])

/-- Two bytes of the stack into one. -/
def onBytes (ls : List Line) : Fallback := plain fun _ =>
  some [[lda (low 2)], ls, [inx], [sta (low 1)]]

/-- Two words of the stack into one, byte by byte. -/
def onWords (m : Mnemonic) : Fallback :=
  each [lda (low 2), .instr m (low 1), sta (low 2), lda (high 2), .instr m (high 1),
    sta (high 2), inx]

end Fallback

open Asm Fallback in
/-- The code for an opcode on its own. -/
def fallback? : Opcode → Option Fallback
  | .label => some label
  | .line => some (plain fun x => some [[.source x.sym]])
  | .nop => some (lines [op .nop])
  | .terminate => some (lines [op .brk])
  | .sec => some (lines [op .sec])
  | .clc => some (lines [op .clc])
  | .sei => some (lines [op .sei])
  | .cli => some (lines [op .cli])
  | .jump => some (jump .jmp)
  | .call => some (jump .jsr)
  | .ret => some (lines [op .rts])
  | .bcs => some (jump .bcs)
  | .bcc => some (jump .bcc)
  | .bneg => some (jump .bmi)
  | .bpos => some (jump .bpl)
  | .bvc => some (jump .bvc)
  | .bvs => some (jump .bvs)
  | .bz => some (jump .beq)
  | .bnz => some (jump .bne)
  | .rsave => some (lines [op .php, pha, txa, pha, tya, pha])
  | .rrestore => some (lines [pla, tay, pla, tax, pla, op .plp])
  | .inlineAssembly => some (plain fun x => some [[.verbatim x.sym]])
  | .syscall => some syscall
  | .breakpoint => some breakpoint
  | .pushByte => some pushByte
  | .pushWord => some pushWord
  | .pushFloat => some pushFloat
  | .pushVarByte => some (onVariable Home.pushByte)
  | .pushVarWord => some (onVariable Home.pushWord)
  | .pushVarFloat | .pushMemFloat => some (floatAt "push_float")
  | .pushMemB | .pushMemUB => some (onMemory Home.pushByte)
  | .pushMemW | .pushMemUW => some (onMemory Home.pushWord)
  | .popVarByte => some (onVariable Home.popByte)
  | .popVarWord => some (onVariable Home.popWord)
  | .popVarFloat | .popMemFloat => some (floatAt "pop_var_float")
  | .popMemByte => some (onMemory Home.popByte)
  | .popMemWord => some (onMemory Home.popWord)
  | .discardByte | .discardWord => some (lines [inx])
  | .discardFloat => some (lines [inx, inx, inx])
  | .readIndexedVarByte => some readByte
  | .readIndexedVarWord => some readWord
  | .writeIndexedVarByte => some writeByte
  | .writeIndexedVarWord => some writeWord
  | .readIndexedVarFloat | .writeIndexedVarFloat | .incVarF | .decVarF => some routineAt
  | .incVarUB | .incVarB => some (onVariable Home.incByte)
  | .incVarUW | .incVarW => some (onVariable Home.incWord)
  | .decVarUB | .decVarB => some (onVariable Home.decByte)
  | .decVarUW | .decVarW => some (onVariable Home.decWord)
  | .addUB | .addB => some (onBytes [clc, adc (low 1)])
  | .subUB | .subB => some (onBytes [sec, sbc (low 1)])
  | .andByte => some (onBytes [.instr .and (low 1)])
  | .orByte => some (onBytes [ora (low 1)])
  | .xorByte => some (onBytes [eor (low 1)])
  | .andWord => some (onWords .and)
  | .orWord => some (onWords .ora)
  | .xorWord => some (onWords .eor)
  | .shlByte | .shrByte | .rolByte | .rorByte | .rol2Byte | .ror2Byte | .invByte | .negB =>
    some (onTop .byte)
  | .shlWord | .shrWord | .shl8Word | .shr8Word | .rolWord | .rorWord | .rol2Word | .ror2Word
  | .invWord | .negW => some (onTop .word)
  | .notByte => some (each [lda (low 1), beq next, lda (.digit 0), beq (.forward 2), here,
      lda (.digit 1), here, sta (low 1)])
  | .notWord => some (each [lda (low 1), ora (high 1), beq next, lda (.digit 0), beq (.forward 2),
      here, lda (.digit 1), here, sta (low 1), lda (.digit 0), sta (high 1)])
  | .ub2uword => some (each [lda (.digit 0), sta (high 1)])
  | .b2word => some (each [lda (low 1), ora (.imm 0x7f), bmi next, lda (.digit 0), here,
      sta (high 1)])
  | .b2ub | .ub2b | .lsb => some (lines [])
  | .msb => some (each [lda (high 1), sta (low 1)])
  | .addUW | .addW | .addF | .subUW | .subW | .subF
  | .mulUB | .mulB | .mulUW | .mulW | .mulF | .divUB | .divB | .divUW | .divW | .divF | .negF
  | .lessUB | .lessB | .lessUW | .lessW | .lessF
  | .greaterUB | .greaterB | .greaterUW | .greaterW | .greaterF
  | .lesseqUB | .lesseqB | .lesseqUW | .lesseqW | .lesseqF
  | .greatereqUB | .greatereqB | .greatereqUW | .greatereqW | .greatereqF
  | .equalByte | .equalWord | .equalF | .notequalByte | .notequalWord | .notequalF
  | .ub2float | .b2float | .uw2float | .w2float => some routine

end Stack6502
