import Stack6502.Lower.Home
import Stack6502.Program.Opcode

/-!
# Operations in place

Operations on one value, carried out where the value lives. Elements of arrays and the top of the
evaluation stack are treated like variables.
-/
namespace Stack6502

inductive Width
  | byte
  | word
  deriving DecidableEq, Repr

/-- Operations on a byte. Rotations pass through the carry, spins do not. -/
inductive ByteOp
  | shiftLeft | shiftRight | rotateLeft | rotateRight | spinLeft | spinRight | complement | negate
  deriving DecidableEq, Repr

/-- Operations on a word; the byte moves shift by eight bits. -/
inductive WordOp
  | shiftLeft | shiftRight | rotateLeft | rotateRight | spinLeft | spinRight | byteUp | byteDown
  | complement | negate
  deriving DecidableEq, Repr

open Asm

namespace ByteOp

def ofOpcode? : Opcode → Option ByteOp
  | .shlByte => some .shiftLeft
  | .shrByte => some .shiftRight
  | .rolByte => some .rotateLeft
  | .rorByte => some .rotateRight
  | .rol2Byte => some .spinLeft
  | .ror2Byte => some .spinRight
  | .invByte => some .complement
  | .negB => some .negate
  | _ => none

def onAccumulator : ByteOp → List Line
  | .shiftLeft => [asl acc]
  | .shiftRight => [lsr acc]
  | .rotateLeft => [rol acc]
  | .rotateRight => [ror acc]
  | .spinLeft => [cmp (.imm 0x80), rol acc]
  | .spinRight => [lsr acc, bcc next, ora (.imm 0x80), here]
  | .complement => [eor (.imm 0xff)]
  | .negate => [eor (.imm 0xff), clc, adc (.digit 1)]

def onLocation (lo : Operand) : ByteOp → List Line
  | .shiftLeft => [asl lo]
  | .shiftRight => [lsr lo]
  | .rotateLeft => [rol lo]
  | .rotateRight => [ror lo]
  | .spinLeft => [lda lo, cmp (.imm 0x80), rol lo]
  | .spinRight => [lda lo, lsr acc, bcc next, ora (.imm 0x80), here, sta lo]
  | .complement => [lda lo, eor (.imm 0xff), sta lo]
  | .negate => [lda (.digit 0), sec, sbc lo, sta lo]

/-- X and Y go through A. -/
def code (o : ByteOp) (lo : Operand) : Home → Option Code
  | .reg .a => some [o.onAccumulator]
  | .reg .x => some [[txa], o.onAccumulator ++ [tax]]
  | .reg .y => some [[tya], o.onAccumulator ++ [tay]]
  | .var | .mem => some [o.onLocation lo]
  | .pair _ => none

end ByteOp

namespace WordOp

def ofOpcode? : Opcode → Option WordOp
  | .shlWord => some .shiftLeft
  | .shrWord => some .shiftRight
  | .rolWord => some .rotateLeft
  | .rorWord => some .rotateRight
  | .rol2Word => some .spinLeft
  | .ror2Word => some .spinRight
  | .shl8Word => some .byteUp
  | .shr8Word => some .byteDown
  | .invWord => some .complement
  | .negW => some .negate
  | _ => none

def onAX : WordOp → List Line
  | .shiftLeft => [asl acc, tay, txa, rol acc, tax, tya]
  | .shiftRight => [tay, txa, lsr acc, tax, tya, ror acc]
  | .rotateLeft => [rol acc, tay, txa, rol acc, tax, tya]
  | .rotateRight => [tay, txa, ror acc, tax, tya, ror acc]
  | .spinLeft => [stx scratch, asl acc, rol scratch, adc (.digit 0), ldx scratch]
  | .spinRight => [sta pointerLow, stx pointerHigh, library "ror2_word", lda pointerLow,
      ldx pointerHigh]
  | .byteUp => [tax, lda (.digit 0)]
  | .byteDown => [txa, ldx (.digit 0)]
  | .complement => [eor (.imm 0xff), pha, txa, eor (.imm 0xff), tax, pla]
  | .negate => [stx scratch, eor (.imm 0xff), clc, adc (.digit 1), pha, lda scratch,
      eor (.imm 0xff), adc (.digit 0), tax, pla]

def onAY : WordOp → List Line
  | .shiftLeft => [sty scratch, asl acc, rol scratch, ldy scratch]
  | .shiftRight => [sty scratch, lsr scratch, ror acc, ldy scratch]
  | .rotateLeft => [sty scratch, rol acc, rol scratch, ldy scratch]
  | .rotateRight => [sty scratch, ror scratch, ror acc, ldy scratch]
  | .spinLeft => [sty scratch, asl acc, rol scratch, adc (.digit 0), ldy scratch]
  | .spinRight => [sta pointerLow, sty pointerHigh, library "ror2_word", lda pointerLow,
      ldy pointerHigh]
  | .byteUp => [tay, lda (.digit 0)]
  | .byteDown => [tya, ldy (.digit 0)]
  | .complement => [eor (.imm 0xff), pha, tya, eor (.imm 0xff), tay, pla]
  | .negate => [sty scratch, eor (.imm 0xff), clc, adc (.digit 1), pha, lda scratch,
      eor (.imm 0xff), adc (.digit 0), tay, pla]

def onXY : WordOp → List Line
  | .shiftLeft => [sty scratch, txa, asl acc, rol scratch, ldy scratch, tax]
  | .shiftRight => [sty scratch, lsr scratch, txa, ror acc, tax, ldy scratch]
  | .rotateLeft => [sty scratch, txa, rol acc, rol scratch, ldy scratch, tax]
  | .rotateRight => [sty scratch, ror scratch, txa, ror acc, tax, ldy scratch]
  | .spinLeft => [stx pointerLow, sty pointerHigh, asl pointerLow, rol pointerHigh, lda pointerLow,
      adc (.digit 0), tax, ldy pointerHigh]
  | .spinRight => [stx pointerLow, sty pointerHigh, library "ror2_word", ldx pointerLow,
      ldy pointerHigh]
  | .byteUp => [txa, tay, ldx (.digit 0)]
  | .byteDown => [tya, tax, ldy (.digit 0)]
  | .complement => [txa, eor (.imm 0xff), tax, tya, eor (.imm 0xff), tay]
  | .negate => [txa, eor (.imm 0xff), clc, adc (.digit 1), tax, tya, eor (.imm 0xff),
      adc (.digit 0), tay]

def onCell (c : Cell) : WordOp → List Line
  | .shiftLeft => [asl c.lo, rol c.hi]
  | .shiftRight => [lsr c.hi, ror c.lo]
  | .rotateLeft => [rol c.lo, rol c.hi]
  | .rotateRight => [ror c.hi, ror c.lo]
  | .spinLeft => [asl c.lo, rol c.hi, bcc next, inc c.lo, here]
  | .spinRight => [lsr c.hi, ror c.lo, bcc next, lda c.hi, ora (.imm 0x80), sta c.hi, here]
  | .byteUp => [lda c.lo, sta c.hi, lda (.digit 0), sta c.lo]
  | .byteDown => [lda c.hi, sta c.lo, lda (.digit 0), sta c.hi]
  | .complement => [lda c.lo, eor (.imm 0xff), sta c.lo, lda c.hi, eor (.imm 0xff), sta c.hi]
  | .negate => [lda (.digit 0), sec, sbc c.lo, sta c.lo, lda (.digit 0), sbc c.hi, sta c.hi]

def code (o : WordOp) (c : Cell) : Home → Option Code
  | .pair .ax => some [o.onAX]
  | .pair .ay => some [o.onAY]
  | .pair .xy => some [o.onXY]
  | .var | .mem => some [o.onCell c]
  | .reg _ => none

end WordOp

/-- An opcode applied in place to a value of the given width. -/
def inPlace (op : Coded Opcode) (width : Width) (c : Cell) (home : Home) : Option Code :=
  match op, width with
  | .known op, .byte => do (← ByteOp.ofOpcode? op).code c.lo home
  | .known op, .word => do (← WordOp.ofOpcode? op).code c home
  | .stray _, _ => none

end Stack6502
