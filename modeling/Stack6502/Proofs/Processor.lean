import Mathlib.Logic.Function.Basic
import Stack6502.Asm.Line
import Stack6502.Proofs.Bytes

/-!
# The processor

What lines of assembly do to a 6502 in binary mode. Branches lead forward only, to `+` labels, so
a branch taken is a number of labels still to be passed. Instructions that leave the lines at hand
have no meaning here.
-/
namespace Stack6502

abbrev Memory := Word → Byte

namespace Memory

variable (m : Memory) (p q : Word)

def put (w : Word) : Memory := Function.update (Function.update m p w.low) q w.high

theorem put_ofBytes (h l : Byte) :
    m.put p q (.ofBytes h l) = Function.update (Function.update m p l) q h := by
  rw [put, Word.low_ofBytes, Word.high_ofBytes]

theorem put_ofBytes_comm (hpq : p ≠ q) (h l : Byte) :
    m.put p q (.ofBytes h l) = Function.update (Function.update m q h) p l := by
  rw [put_ofBytes, Function.update_comm hpq.symm]

variable {p q}

/-- A byte written twice, with another one in between. -/
theorem update_again (hpq : p ≠ q) (u v w : Byte) :
    Function.update (Function.update (Function.update m p u) q v) p w =
      Function.update (Function.update m q v) p w := by
  rw [Function.update_comm hpq, Function.update_idem]

end Memory

structure Cpu where
  a : Byte
  x : Byte
  y : Byte
  sp : Byte
  carry : Bool
  zero : Bool
  negative : Bool
  overflow : Bool
  mem : Memory

structure Layout where
  address : Text → Int
  /-- What a routine does until it returns. -/
  routine : Text → Cpu → Cpu

/-- A processor among lines, with the number of `+` labels a branch has still to pass. -/
structure Flow where
  skip : Nat
  cpu : Cpu

namespace Cpu

@[simp] def setA (c : Cpu) (v : Byte) : Cpu := { c with a := v, zero := v == 0, negative := v.msb }

@[simp] def setX (c : Cpu) (v : Byte) : Cpu := { c with x := v, zero := v == 0, negative := v.msb }

@[simp] def setY (c : Cpu) (v : Byte) : Cpu := { c with y := v, zero := v == 0, negative := v.msb }

@[simp] def store (c : Cpu) (p : Word) (v : Byte) : Cpu :=
  { c with mem := Function.update c.mem p v }

/-- Memory changed in place, with the flags of the result. -/
@[simp] def setMem (c : Cpu) (p : Word) (v : Byte) : Cpu :=
  { c with mem := Function.update c.mem p v, zero := v == 0, negative := v.msb }

@[simp] def addCarry (c : Cpu) (v : Byte) : Cpu :=
  let s := Byte.sum c.carry c.a v
  { c.setA s.2 with carry := s.1, overflow := c.a.msb == v.msb && s.2.msb != c.a.msb }

/-- Subtraction adds the complement; a clear carry is a borrow. -/
@[simp] def subCarry (c : Cpu) (v : Byte) : Cpu := c.addCarry (~~~v)

@[simp] def compare (c : Cpu) (r v : Byte) : Cpu :=
  { c with carry := v.ule r, zero := r == v, negative := (r - v).msb }

def stackAddress (sp : Byte) : Word := .ofBytes 0x01 sp

def push (c : Cpu) (v : Byte) : Cpu :=
  { c with mem := Function.update c.mem (stackAddress c.sp) v, sp := c.sp - 1 }

def pull (c : Cpu) : Cpu := { c with sp := c.sp + 1 }.setA (c.mem (stackAddress (c.sp + 1)))

-- What was pushed is pulled from where it stands.
attribute [simp] BitVec.sub_add_cancel

end Cpu

namespace Layout

variable (L : Layout)

def value : Place → Int
  | .name symbol => L.address symbol
  | .address a => a.toInt
  | .plus p offset => value p + offset.toInt

/-- The address an operand stands for. Addresses by X that start in the zero page stay in it;
there are no such addresses by Y for the instructions in use. -/
def address? (x y : Byte) : Operand → Option Word
  | .direct p => some (BitVec.ofInt 16 (L.value p))
  | .byX p =>
    if 0 ≤ L.value p ∧ L.value p < 256 then
      some ((BitVec.ofInt 8 (L.value p) + x).setWidth 16)
    else some (BitVec.ofInt 16 (L.value p) + x.setWidth 16)
  | .byY p => some (BitVec.ofInt 16 (L.value p) + y.setWidth 16)
  | _ => none

def fetch? (c : Cpu) : Operand → Option Byte
  | .imm n | .digit n => some n.toBitVec
  | .lowOf p => some (BitVec.ofInt 8 (L.value p))
  | .highOf p => some (Word.high (BitVec.ofInt 16 (L.value p)))
  | o => (L.address? c.x c.y o).map c.mem

def load (c : Cpu) (o : Operand) (set : Cpu → Byte → Cpu) : Option Flow :=
  (L.fetch? c o).map fun v => ⟨0, set c v⟩

def save (c : Cpu) (o : Operand) (v : Byte) : Option Flow :=
  (L.address? c.x c.y o).map fun p => ⟨0, c.store p v⟩

def change (c : Cpu) (o : Operand) (f : Byte → Byte) : Option Flow :=
  (L.address? c.x c.y o).map fun p => ⟨0, c.setMem p (f (c.mem p))⟩

def shift (c : Cpu) (f : Shift) : Operand → Option Flow
  | .accumulator => some ⟨0, { c.setA (f c.carry c.a).2 with carry := (f c.carry c.a).1 }⟩
  | o => (L.address? c.x c.y o).map fun p =>
    ⟨0, { c.setMem p (f c.carry (c.mem p)).2 with carry := (f c.carry (c.mem p)).1 }⟩

/-- A branch that is taken to a place other than a `+` label leaves the lines. -/
def branch (c : Cpu) (taken : Bool) : Operand → Option Flow
  | .forward n => some ⟨if taken then n else 0, c⟩
  | _ => if taken then none else some ⟨0, c⟩

@[simp] def step (c : Cpu) (o : Operand) : Mnemonic → Option Flow
  | .lda => L.load c o Cpu.setA
  | .ldx => L.load c o Cpu.setX
  | .ldy => L.load c o Cpu.setY
  | .sta => L.save c o c.a
  | .stx => L.save c o c.x
  | .sty => L.save c o c.y
  | .tax => some ⟨0, c.setX c.a⟩
  | .tay => some ⟨0, c.setY c.a⟩
  | .txa => some ⟨0, c.setA c.x⟩
  | .tya => some ⟨0, c.setA c.y⟩
  | .inx => some ⟨0, c.setX (c.x + 1)⟩
  | .iny => some ⟨0, c.setY (c.y + 1)⟩
  | .dex => some ⟨0, c.setX (c.x - 1)⟩
  | .dey => some ⟨0, c.setY (c.y - 1)⟩
  | .inc => L.change c o (· + 1)
  | .dec => L.change c o (· - 1)
  | .asl => L.shift c .asl o
  | .lsr => L.shift c .lsr o
  | .rol => L.shift c .rol o
  | .ror => L.shift c .ror o
  | .adc => L.load c o Cpu.addCarry
  | .sbc => L.load c o Cpu.subCarry
  | .and => L.load c o fun c v => c.setA (c.a &&& v)
  | .ora => L.load c o fun c v => c.setA (c.a ||| v)
  | .eor => L.load c o fun c v => c.setA (c.a ^^^ v)
  | .cmp => L.load c o fun c v => c.compare c.a v
  | .cpx => L.load c o fun c v => c.compare c.x v
  | .clc => some ⟨0, { c with carry := false }⟩
  | .sec => some ⟨0, { c with carry := true }⟩
  | .pha => some ⟨0, c.push c.a⟩
  | .pla => some ⟨0, c.pull⟩
  | .bcc => branch c (!c.carry) o
  | .bcs => branch c c.carry o
  | .bne => branch c (!c.zero) o
  | .beq => branch c c.zero o
  | .bpl => branch c (!c.negative) o
  | .bmi => branch c c.negative o
  | .bvc => branch c (!c.overflow) o
  | .bvs => branch c c.overflow o
  | .jmp => branch c true o
  | .jsr =>
    match o with
    | .direct (.name routine) => some ⟨0, L.routine routine c⟩
    | _ => none
  -- Interrupts are not part of the state.
  | .nop | .cli | .sei => some ⟨0, c⟩
  | .brk | .php | .plp | .rts => none

end Layout

def Line.isHere : Line → Bool
  | .label name => name == ("+" : Text)
  | _ => false

namespace Layout

variable (L : Layout)

def advance (c : Cpu) : Line → Option Flow
  | .instr m o => L.step c o m
  | .marked _ m => L.step c .none m
  | .label _ | .source _ => some ⟨0, c⟩
  | .verbatim _ => none

/-- The processor after all lines, with `skip` labels to pass first. A branch must have found its
label by the end. -/
def resume : (skip : Nat) → List Line → Cpu → Option Cpu
  | 0, [], c => some c
  | _ + 1, [], _ => none
  | k + 1, l :: ls, c => resume (if l.isHere then k else k + 1) ls c
  | 0, l :: ls, c => (L.advance c l).bind fun f => resume f.skip ls f.cpu

def run (ls : List Line) (c : Cpu) : Option Cpu := L.resume 0 ls c

end Layout

attribute [simp] Asm.op Asm.adc Asm.asl Asm.bcc Asm.beq Asm.bmi Asm.bne Asm.clc Asm.cmp Asm.cpx
  Asm.dec Asm.dex Asm.dey Asm.eor Asm.inc Asm.inx Asm.iny Asm.lda Asm.ldx Asm.ldy Asm.lsr Asm.ora
  Asm.pha Asm.pla Asm.rol Asm.ror Asm.sbc Asm.sec Asm.sta Asm.stx Asm.sty Asm.tax Asm.tay Asm.txa
  Asm.tya Asm.next Asm.acc

namespace Layout

section

variable {L : Layout} {o : Operand} {x y : Byte} {p : Word} (h : L.address? x y o = some p)
  {c : Cpu} (hx : c.x = x) (hy : c.y = y)

include h hx hy

theorem load_of_address (set : Cpu → Byte → Cpu) :
    L.load c o set = some ⟨0, set c (c.mem p)⟩ := by
  cases o <;> simp_all [load, fetch?, address?]

theorem save_of_address (v : Byte) : L.save c o v = some ⟨0, c.store p v⟩ := by
  simp [save, hx, hy, h]

theorem change_of_address (f : Byte → Byte) :
    L.change c o f = some ⟨0, c.setMem p (f (c.mem p))⟩ := by
  simp [change, hx, hy, h]

theorem shift_of_address (f : Shift) :
    L.shift c f o = some ⟨0, { c.setMem p (f c.carry (c.mem p)).2 with
      carry := (f c.carry (c.mem p)).1 }⟩ := by
  cases o <;> simp_all [shift, address?]

end

variable {L : Layout} {c d : Cpu} {o : Operand} {ls ms : List Line}

@[simp] theorem load_imm (n : UInt8) (set : Cpu → Byte → Cpu) :
    L.load c (.imm n) set = some ⟨0, set c n.toBitVec⟩ := rfl

@[simp] theorem load_digit (n : UInt8) (set : Cpu → Byte → Cpu) :
    L.load c (.digit n) set = some ⟨0, set c n.toBitVec⟩ := rfl

@[simp] theorem shift_accumulator (f : Shift) :
    L.shift c f .accumulator =
      some ⟨0, { c.setA (f c.carry c.a).2 with carry := (f c.carry c.a).1 }⟩ := rfl

@[simp] theorem branch_forward (taken : Bool) (n : Nat) :
    branch c taken (.forward n) = some ⟨if taken then n else 0, c⟩ := rfl

@[simp] theorem load_direct (p : Place) (set : Cpu → Byte → Cpu) :
    L.load c (.direct p) set = some ⟨0, set c (c.mem (.ofInt 16 (L.value p)))⟩ := rfl

@[simp] theorem save_direct (p : Place) (v : Byte) :
    L.save c (.direct p) v = some ⟨0, c.store (.ofInt 16 (L.value p)) v⟩ := rfl

@[simp] theorem shift_direct (p : Place) (f : Shift) : L.shift c f (.direct p) =
    some ⟨0, { c.setMem (.ofInt 16 (L.value p)) (f c.carry (c.mem (.ofInt 16 (L.value p)))).2 with
      carry := (f c.carry (c.mem (.ofInt 16 (L.value p)))).1 }⟩ := rfl

theorem address?_byY (x y : Byte) (p : Place) :
    L.address? x y (.byY p) = some (.ofInt 16 (L.value p + y.toNat)) := by
  rw [address?, Option.some_inj, BitVec.ofInt_add, BitVec.ofInt_natCast, BitVec.ofNat_toNat]

@[simp] theorem load_byY (p : Place) (set : Cpu → Byte → Cpu) :
    L.load c (.byY p) set = some ⟨0, set c (c.mem (.ofInt 16 (L.value p + c.y.toNat)))⟩ :=
  load_of_address (address?_byY _ _ p) rfl rfl set

@[simp] theorem save_byY (p : Place) (v : Byte) :
    L.save c (.byY p) v = some ⟨0, c.store (.ofInt 16 (L.value p + c.y.toNat)) v⟩ :=
  save_of_address (address?_byY _ _ p) rfl rfl v

@[simp] theorem run_nil : L.run [] c = some c := rfl

@[simp] theorem resume_zero : L.resume 0 ls c = L.run ls c := rfl

@[simp] theorem run_instr (m : Mnemonic) :
    L.run (.instr m o :: ls) c = (L.step c o m).bind fun f => L.resume f.skip ls f.cpu := rfl

@[simp] theorem run_here : L.run (Asm.here :: ls) c = L.run ls c := rfl

@[simp] theorem resume_instr (k : Nat) (m : Mnemonic) :
    L.resume (k + 1) (.instr m o :: ls) c = L.resume (k + 1) ls c := rfl

@[simp] theorem resume_here (k : Nat) : L.resume (k + 1) (Asm.here :: ls) c = L.resume k ls c := rfl

theorem resume_append {k : Nat} (h : L.resume k ls c = some d) :
    L.resume k (ls ++ ms) c = L.run ms d := by
  induction ls generalizing k c with
  | nil =>
    cases k with
    | zero =>
      cases h
      rfl
    | succ k => cases h
  | cons l ls ih =>
    cases k with
    | zero =>
      obtain ⟨f, hf, hd⟩ := Option.bind_eq_some_iff.mp h
      simp only [List.cons_append, resume, hf, Option.bind_some]
      exact ih hd
    | succ k => exact ih h

/-- Lines whose branches find their labels run before those that follow. -/
theorem run_append (h : L.run ls c = some d) : L.run (ls ++ ms) c = L.run ms d := resume_append h

end Layout

end Stack6502
