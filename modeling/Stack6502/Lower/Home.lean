import Stack6502.Asm.Line

/-!
# Homes

Where a value lives: a register, a pair of registers with the low byte in the first, a variable or
memory. The tables give the lines for moving a value between its home and the evaluation stack,
and for stepping it; a home that an operation cannot serve has no lines.
-/
namespace Stack6502

inductive Reg
  | a | x | y
  deriving DecidableEq, Repr

inductive Pair
  | ax | ay | xy
  deriving DecidableEq, Repr

inductive Home
  | reg (r : Reg)
  | pair (p : Pair)
  | var
  | mem
  deriving DecidableEq, Repr

namespace Home

def all : List Home :=
  [.reg .a, .reg .x, .reg .y, .pair .ax, .pair .ay, .pair .xy, .var, .mem]

def name : Home → String
  | .reg .a => "A"
  | .reg .x => "X"
  | .reg .y => "Y"
  | .pair .ax => "AX"
  | .pair .ay => "AY"
  | .pair .xy => "XY"
  | .var => "var"
  | .mem => "mem"

def isPair : Home → Bool
  | .pair _ => true
  | _ => false

/-- A register or a pair. -/
def isRegister : Home → Bool
  | .reg _ | .pair _ => true
  | _ => false

/-- The home of a name: registers have their own names. -/
def ofName (sym : Text) : Home :=
  if sym = "A" then .reg .a
  else if sym = "X" then .reg .x
  else if sym = "Y" then .reg .y
  else if sym = "AX" then .pair .ax
  else if sym = "AY" then .pair .ay
  else if sym = "XY" then .pair .xy
  else .var

open Asm

def pushByte (c : Cell) : Home → Option (List Line)
  | .reg .a => some [sta (low 0), dex]
  | .reg .y => some [tya, sta (low 0), dex]
  | .var | .mem => some [lda c.lo, sta (low 0), dex]
  | _ => none

def pushWord (c : Cell) : Home → Option (List Line)
  | .pair .ay => some [sta (low 0), pha, tya, sta (high 0), pla, dex]
  | .var | .mem => some [lda c.lo, sta (low 0), lda c.hi, sta (high 0), dex]
  | _ => none

def popByte (c : Cell) : Home → Option (List Line)
  | .reg .a => some [inx, lda (low 0)]
  | .reg .y => some [inx, ldy (low 0)]
  | .var | .mem => some [inx, lda (low 0), sta c.lo]
  | _ => none

def popWord (c : Cell) : Home → Option (List Line)
  | .pair .ay => some [inx, lda (low 0), ldy (high 0)]
  | .var | .mem => some [inx, lda (low 0), sta c.lo, lda (high 0), sta c.hi]
  | _ => none

def incByte (c : Cell) : Home → Option (List Line)
  | .reg .a => some [clc, adc (.digit 1)]
  | .reg .x => some [inx]
  | .reg .y => some [iny]
  | .var | .mem => some [inc c.lo]
  | .pair _ => none

def decByte (c : Cell) : Home → Option (List Line)
  | .reg .a => some [sec, sbc (.digit 1)]
  | .reg .x => some [dex]
  | .reg .y => some [dey]
  | .var | .mem => some [dec c.lo]
  | .pair _ => none

def incWord (c : Cell) : Home → Option (List Line)
  | .pair .ax => some [clc, adc (.digit 1), bne next, inx, here]
  | .pair .ay => some [clc, adc (.digit 1), bne next, iny, here]
  | .pair .xy => some [inx, bne next, iny, here]
  | .var | .mem => some [inc c.lo, bne next, inc c.hi, here]
  | .reg _ => none

def decWord (c : Cell) : Home → Option (List Line)
  | .pair .ax => some [cmp (.digit 0), bne next, dex, here, sec, sbc (.digit 1)]
  | .pair .ay => some [cmp (.digit 0), bne next, dey, here, sec, sbc (.digit 1)]
  | .pair .xy => some [cpx (.digit 0), bne next, dey, here, dex]
  | .var | .mem => some [lda c.lo, bne next, dec c.hi, here, dec c.lo]
  | .reg _ => none

/-- Puts a byte index into Y and leaves A alone. -/
def indexY (index : Operand) : Home → Option (List Line)
  | .reg .a => some [tay]
  | .reg .x => some [stx scratch, ldy scratch]
  | .reg .y => some []
  | .var | .mem => some [ldy index]
  | .pair _ => none

/-- Puts a byte index into X, which the caller has saved. -/
def indexX (index : Operand) : Home → Option (List Line)
  | .reg .a => some [tax]
  | .reg .x => some []
  | .reg .y => some [tya, tax]
  | .var | .mem => some [ldx index]
  | .pair _ => none

/-- Puts twice a byte index into X. -/
def indexX2 (index : Operand) : Home → Option (List Line)
  | .reg .a => some [asl acc, tax]
  | .reg .x => some [txa, asl acc, tax]
  | .reg .y => some [tya, asl acc, tax]
  | .var | .mem => some [lda index, asl acc, tax]
  | .pair _ => none

end Home

end Stack6502
