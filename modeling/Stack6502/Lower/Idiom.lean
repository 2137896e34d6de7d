import Stack6502.Lower.InPlace
import Stack6502.Lower.Pattern

/-!
# Idioms

Instructions that read a value, work on it and write it back to where it came from, lowered
into work in place.
-/
namespace Stack6502.Idiom

open Asm

/-- A float is negated by a library routine, which needs its address. -/
def negateFloat (p : Place) : Code :=
  Code.each [lda (.lowOf p), ldy (.highOf p), library "neg_var_f"]

/-- `op` applied in place to what `load` reads at `home`. -/
def applyAt (load op : Coded Opcode) (home : Home) (p : Place) (c : Cell) : Option Code :=
  match load with
  | .known .pushVarFloat | .known .pushMemFloat =>
    if op = .known .negF && !home.isRegister then some (negateFloat p) else none
  | .known .pushVarWord | .known .pushMemW | .known .pushMemUW => inPlace op .word c home
  | _ => inPlace op .byte c home

/-- The opcode that writes back to a variable what another one reads. -/
def popsVar : Coded Opcode → Coded Opcode → Bool
  | .known .pushVarByte, .known .popVarByte
  | .known .pushVarWord, .known .popVarWord
  | .known .pushVarFloat, .known .popVarFloat => true
  | _, _ => false

/-- The opcode that writes back to memory what another one reads. -/
def popsMem : Coded Opcode → Coded Opcode → Bool
  | .known .pushMemB, .known .popMemByte
  | .known .pushMemUB, .known .popMemByte
  | .known .pushMemW, .known .popMemWord
  | .known .pushMemUW, .known .popMemWord
  | .known .pushMemFloat, .known .popMemFloat => true
  | _, _ => false

def sameVar : Idiom where
  name := "same var"
  span := 3
  predicate := some fun
    | [x, _, y] => .ok (popsVar x.op y.op && x.sameRef y)
    | _ => .error .shortWindow
  lowering := some <| .reading fun
    | [x, o, _] => .ofOption (applyAt x.op o.op (.ofName x.sym) (.name x.sym) (.named x.sym))
    | _ => .fail .shortWindow

def sameMem : Idiom where
  name := "same mem"
  span := 3
  predicate := some fun
    | [x, _, y] => .ok (popsMem x.op y.op && x.sameRef y)
    | _ => .error .shortWindow
  lowering := some <| .reading fun
    | [x, o, _] => do
      let a ← x.integer
      .ofOption (applyAt x.op o.op .mem (.address a) (.memory a))
    | _ => .fail .shortWindow

/-- The width of a value pushed from a variable or memory. -/
def pushWidth? : Coded Opcode → Option Width
  | .known .pushVarByte | .known .pushMemB | .known .pushMemUB => some .byte
  | .known .pushVarWord | .known .pushMemW | .known .pushMemUW => some .word
  | _ => none

def constWidth? : Coded Opcode → Option Width
  | .known .pushByte => some .byte
  | .known .pushWord => some .word
  | _ => none

def popWidth? : Coded Opcode → Option Width
  | .known .popVarByte | .known .popMemByte => some .byte
  | .known .popVarWord | .known .popMemWord => some .word
  | _ => none

/-- The width of a sum or difference, and whether it is a sum. -/
def sumWidth? : Coded Opcode → Option (Width × Bool)
  | .known .addUB | .known .addB => some (.byte, true)
  | .known .subUB | .known .subB => some (.byte, false)
  | .known .addUW | .known .addW => some (.word, true)
  | .known .subUW | .known .subW => some (.word, false)
  | _ => none

/-- A stored value that is stepped. -/
structure Step where
  width : Width
  isSum : Bool
  ref : Ref
  deriving DecidableEq, Repr

/-- The instruction that pushes the stored value and the one that pushes the constant, which may
stand in either order. -/
def operands (x y : Instr) : Instr × Instr := if (constWidth? x.op).isSome then (y, x) else (x, y)

/-- `x := x + n`, `x := x - n` or `x := n + x`, by the opcodes and operands of four
instructions. -/
def step? (x y o z : Instr) : Option Step := do
  let (location, constant) := operands x y
  let width ← pushWidth? location.op
  let (sumWidth, isSum) ← sumWidth? o.op
  let ref ← location.ref?
  if constant.int?.isSome && constWidth? constant.op = some width && sumWidth = width
      && popWidth? z.op = some width && (isSum || (constWidth? x.op).isNone) && location.sameRef z
  then some ⟨width, isSum, ref⟩
  else none

/-- A byte stepped by a constant other than zero and one. -/
def addByte (isSum : Bool) (n : Int64) : List Line :=
  if isSum then [clc, adc (lowByte n)] else [sec, sbc (lowByte n)]

def stepByte (isSum : Bool) (n : Int64) (c : Cell) (home : Home) : Option Code :=
  if home.isPair then none
  else if n = 0 then some []
  else if n = 1 then ((if isSum then home.incByte c else home.decByte c)).map ([·])
  else match home with
    | .reg .a => some [addByte isSum n]
    | .reg .x => some [[txa], addByte isSum n, [tax]]
    | .reg .y => some [[tya], addByte isSum n, [tay]]
    | _ => some [[lda c.lo], addByte isSum n, [sta c.lo]]

def stepWord (isSum : Bool) (n : Int64) (c : Cell) (home : Home) : Option Code :=
  let carry := if isSum then clc else sec
  let add := fun o => if isSum then adc o else sbc o
  let (l, m) := (add (lowByte n), add (highByte n))
  if n = 0 then (if home.isRegister && !home.isPair then none else some [])
  else if n = 1 then ((if isSum then home.incWord c else home.decWord c)).map ([·])
  else match home with
    | .reg _ => none
    | .pair .ax => some (Code.each [carry, l, pha, txa, m, tax, pla])
    | .pair .ay => some (Code.each [carry, l, pha, tya, m, tay, pla])
    | .pair .xy => some (Code.each [txa, carry, l, tax, tya, m, tay])
    | .var | .mem =>
      some (Code.each [lda c.lo, carry, l, sta c.lo, lda c.hi, m, sta c.hi])

def Step.code (s : Step) (amount : Int64) : Option Code :=
  let (c, home) := match s.ref with
    | .var sym => (Cell.named sym, Home.ofName sym)
    | .mem a => (Cell.memory a, Home.mem)
  match s.width with
  | .byte => stepByte s.isSum (amount &&& 0xff) c home
  | .word => stepWord s.isSum (amount &&& 0xffff) c home

def addConst : Idiom where
  name := "same location add const"
  span := 4
  predicate := some fun
    | [x, y, o, z] => .ok (step? x y o z).isSome
    | _ => .error .shortWindow
  lowering := some <| .reading fun
    | [x, y, o, z] => do
      let n ← (operands x y).2.integer
      .ofOption ((step? x y o z).bind (·.code n))
    | _ => .fail .shortWindow

/-- The width of the elements of an array read and written back. -/
def elementWidth? : Coded Opcode → Coded Opcode → Option Width
  | .known .readIndexedVarByte, .known .writeIndexedVarByte => some .byte
  | .known .readIndexedVarWord, .known .writeIndexedVarWord => some .word
  | _, _ => none

def sameArg (x y : Instr) : Bool :=
  match x.arg, y.arg with
  | some v, some w => v.same w
  | _, _ => false

def constElement : Idiom where
  name := "same const indexed element"
  span := 5
  predicate := some fun
    | [i, x, _, j, y] =>
      .ok ((elementWidth? x.op y.op).isSome && i.is .pushByte && j.is .pushByte && sameArg i j
        && x.sameRef y)
    | _ => .error .shortWindow
  lowering := some <| .reading fun
    | [i, x, o, _, y] => do
      let n ← i.integer
      match ← .ofOption (elementWidth? x.op y.op) with
      | .byte =>
        let p := Operand.direct (.elem x.sym n 1)
        .ofOption (inPlace o.op .byte ⟨p, p⟩ .var)
      | .word => .ofOption (inPlace o.op .word (.element x.sym n) .var)
    | _ => .fail .shortWindow

/-- The element is addressed through X, which holds the stack pointer and is saved meanwhile. -/
def varElement : Idiom where
  name := "same var indexed element"
  span := 5
  predicate := some fun
    | [i, x, _, j, y] =>
      .ok ((elementWidth? x.op y.op).isSome && i.is .pushVarByte && j.is .pushVarByte
        && i.sameRef j && x.sameRef y)
    | _ => .error .shortWindow
  lowering := some <| .reading fun
    | [i, x, o, _, y] => .ofOption do
      let width ← elementWidth? x.op y.op
      let index := Operand.direct (.name i.sym)
      let home := Home.ofName i.sym
      let load ← match width with
        | .byte => home.indexX index
        | .word => home.indexX2 index
      let body ← inPlace o.op width (.indexed x.sym) .var
      return [[stx scratch], load] ++ body ++ [[ldx scratch]]
    | _ => .fail .shortWindow

def all : List Idiom := [sameVar, sameMem, addConst, constElement, varElement]

end Stack6502.Idiom
