import Stack6502.Lower.Home

/-!
# Moves

Bytes and words carried from where they are read to where they are written without a detour over
the evaluation stack, and bytes widened to words on the way.
-/
namespace Stack6502

/-- A byte to be read: in a register, or at a location after the lines that set up its index. -/
inductive ByteValue
  | reg (r : Reg)
  | loc (place : Operand) (setup : List Line) (usesY : Bool)
  deriving DecidableEq, Repr

/-- A word to be read or written. -/
inductive WordValue
  | pair (p : Pair)
  | cell (c : Cell)
  deriving DecidableEq, Repr

open Asm

/-- Between registers, the source first. -/
def moveReg : Reg → Reg → List Line
  | .a, .a | .x, .x | .y, .y => []
  | .a, .x => [tax]
  | .a, .y => [tay]
  | .x, .a => [txa]
  | .x, .y => [txa, tay]
  | .y, .a => [tya]
  | .y, .x => [tya, tax]

def movePair : Pair → Pair → List Line
  | .ax, .ax | .ay, .ay | .xy, .xy => []
  | .ax, .ay => [stx scratch, ldy scratch]
  | .ax, .xy => [stx scratch, tax, ldy scratch]
  | .ay, .ax => [sty scratch, ldx scratch]
  | .ay, .xy => [tax]
  | .xy, .ax => [txa, sty scratch, ldx scratch]
  | .xy, .ay => [txa]

def loadReg (o : Operand) : Reg → Line
  | .a => lda o
  | .x => ldx o
  | .y => ldy o

def storeReg (o : Operand) : Reg → Line
  | .a => sta o
  | .x => stx o
  | .y => sty o

def loadPair (c : Cell) : Pair → List Line
  | .ax => [lda c.lo, ldx c.hi]
  | .ay => [lda c.lo, ldy c.hi]
  | .xy => [ldx c.lo, ldy c.hi]

def storePair (c : Cell) : Pair → List Line
  | .ax => [sta c.lo, stx c.hi]
  | .ay => [sta c.lo, sty c.hi]
  | .xy => [stx c.lo, sty c.hi]

namespace ByteValue

/-- The byte of a named variable or register. -/
def ofName? (sym : Text) : Option ByteValue :=
  match Home.ofName sym with
  | .reg r => some (.reg r)
  | .pair _ => none
  | .var | .mem => some (.loc (.direct (.name sym)) [] false)

def toA : ByteValue → Code
  | .reg r => [moveReg r .a]
  | .loc place setup _ => [setup, [lda place]]

/-- A location indexed by Y cannot be loaded into Y itself. -/
def toReg (r : Reg) : ByteValue → Code
  | .reg source => [moveReg source r]
  | .loc place setup usesY =>
    if r = .y && usesY then [setup, [lda place], [tay]] else [setup, [loadReg place r]]

def toPlace (dest : Operand) : ByteValue → Code
  | .reg r => [[storeReg dest r]]
  | .loc place setup _ => [setup, [lda place], [sta dest]]

/-- Into an array at the index found at `index`. The byte goes through A, so the index cannot. -/
def toIndexed (array : Text) (index : Operand) (home : Home) (v : ByteValue) : Option Code :=
  if home = .reg .a then none
  else (home.indexY index).map fun setup => v.toA ++ [setup, [sta (.byY (.name array))]]

end ByteValue

namespace WordValue

/-- The word of a named variable or register pair. -/
def ofName? (sym : Text) : Option WordValue :=
  match Home.ofName sym with
  | .reg _ => none
  | .pair p => some (.pair p)
  | .var | .mem => some (.cell (.named sym))

/-- The word `v` put into `d`. -/
def moveTo : (v d : WordValue) → Code
  | .pair p, .pair q => [movePair p q]
  | .pair p, .cell d => [storePair d p]
  | .cell c, .pair q => [loadPair c q]
  | .cell c, .cell d => Code.each [lda c.lo, sta d.lo, lda c.hi, sta d.hi]

/-- The register for the low byte of a pair. -/
def lowReg : Pair → Reg
  | .ax | .ay => .a
  | .xy => .x

def zeroHigh : WordValue → List Line
  | .pair .ax => [ldx (.digit 0)]
  | .pair .ay | .pair .xy => [ldy (.digit 0)]
  | .cell d => [lda (.digit 0), sta d.hi]

/-- The byte with zeros in front. -/
def zeroExtend (v : ByteValue) (d : WordValue) : Code :=
  let low := match d with
    | .pair p => v.toReg (lowReg p)
    | .cell d => v.toPlace d.lo
  low ++ [d.zeroHigh]

/-- The signed byte in A put into a word. -/
def signed : WordValue → List Line
  | .pair .ax => [ldx (.digit 0), cmp (.imm 0x80), bcc next, dex, here]
  | .pair .ay => [ldy (.digit 0), cmp (.imm 0x80), bcc next, dey, here]
  | .pair .xy => [tax, ldy (.digit 0), cmp (.imm 0x80), bcc next, dey, here]
  | .cell d => [sta d.lo, ora (.imm 0x7f), bmi next, lda (.digit 0), here, sta d.hi]

/-- The byte with copies of its sign in front. -/
def signExtend (v : ByteValue) (d : WordValue) : Code := v.toA ++ [d.signed]

end WordValue

/-- Five bytes copied by the runtime library. -/
def copyFloat (source dest : Place) : Code :=
  Code.each [lda (.lowOf source), ldy (.highOf source), sta pointerLow, sty pointerHigh,
    lda (.lowOf dest), ldy (.highOf dest), library "copy_float"]

end Stack6502
