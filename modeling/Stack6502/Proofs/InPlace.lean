import Stack6502.Lower.InPlace
import Stack6502.Proofs.Processor

/-!
# What operations in place compute

A value in memory is replaced by the operation applied to it. Registers other than A and the rest
of memory stay. The lines name their bytes by operands of any kind, so the same statements serve
variables, elements of arrays and the top of the evaluation stack.
-/
namespace Stack6502

def ByteOp.apply (carry : Bool) (v : Byte) : ByteOp → Byte
  | .shiftLeft => v <<< 1
  | .shiftRight => v >>> 1
  | .rotateLeft => v <<< 1 + (BitVec.ofBool carry).setWidth 8
  | .rotateRight => v >>> 1 + if carry then 0x80 else 0
  | .spinLeft => v.rotateLeft 1
  | .spinRight => v.rotateRight 1
  | .complement => ~~~v
  | .negate => -v

def WordOp.apply (carry : Bool) (w : Word) : WordOp → Word
  | .shiftLeft => w <<< 1
  | .shiftRight => w >>> 1
  | .rotateLeft => w <<< 1 + (BitVec.ofBool carry).setWidth 16
  | .rotateRight => w >>> 1 + if carry then 0x8000 else 0
  | .spinLeft => w.rotateLeft 1
  | .spinRight => w.rotateRight 1
  | .byteUp => w <<< 8
  | .byteDown => w >>> 8
  | .complement => ~~~w
  | .negate => -w

structure Cpu.Writes (c : Cpu) (m : Memory) (d : Cpu) : Prop where
  x : d.x = c.x
  y : d.y = c.y
  sp : d.sp = c.sp
  mem : d.mem = m

open Layout

theorem ByteOp.run_onLocation {L : Layout} (o : ByteOp) {lo : Operand} {c : Cpu} {p : Word}
    (hp : L.address? c.x c.y lo = some p) :
    ∃ d, L.run (o.onLocation lo) c = some d ∧
      c.Writes (Function.update c.mem p (o.apply c.carry (c.mem p))) d := by
  cases o with
  | shiftLeft | shiftRight =>
    simp [onLocation, shift_of_address hp]
    exact ⟨rfl, rfl, rfl, rfl⟩
  | rotateLeft =>
    have hv (b : Bool) (v : Byte) : (Shift.rol b v).2 = v <<< 1 + (BitVec.ofBool b).setWidth 8 := by
      revert b v; decide +kernel
    simp [onLocation, shift_of_address hp]
    exact ⟨rfl, rfl, rfl, by simp only [hv, apply]⟩
  | rotateRight =>
    have hv (b : Bool) (v : Byte) : (Shift.ror b v).2 = v >>> 1 + if b then 0x80 else 0 := by
      revert b v; decide +kernel
    simp [onLocation, shift_of_address hp]
    exact ⟨rfl, rfl, rfl, by simp only [hv, apply]⟩
  | spinLeft =>
    have hv (v : Byte) : (Shift.rol (BitVec.ule 0x80#8 v) v).2 = v.rotateLeft 1 := by
      revert v; decide +kernel
    simp [onLocation, load_of_address hp, shift_of_address hp]
    exact ⟨rfl, rfl, rfl, by simp only [hv, apply]⟩
  | spinRight =>
    have hv (b : Bool) (v : Byte) : (if (Shift.lsr b v).1 then (Shift.lsr b v).2 ||| 0x80#8
        else (Shift.lsr b v).2) = v.rotateRight 1 := by
      revert b v; decide +kernel
    have hp' := hv c.carry (c.mem p)
    cases hb : (Shift.lsr c.carry (c.mem p)).1 with
    | false | true =>
      simp [onLocation, load_of_address hp, save_of_address hp, hb]
      simp only [hb, if_true, if_false, Bool.false_eq_true] at hp'
      exact ⟨rfl, rfl, rfl, by simp only [hp', apply]⟩
  | complement =>
    have hv (v : Byte) : v ^^^ 0xff#8 = ~~~v := by
      revert v; decide +kernel
    simp [onLocation, load_of_address hp, save_of_address hp]
    exact ⟨rfl, rfl, rfl, by simp only [hv, apply]⟩
  | negate =>
    have hv (v : Byte) : (Byte.sum true 0#8 (~~~v)).2 = -v := by
      revert v; decide +kernel
    simp [onLocation, load_of_address hp, save_of_address hp]
    exact ⟨rfl, rfl, rfl, by simp only [hv, apply]⟩

theorem WordOp.run_onCell {L : Layout} (o : WordOp) {k : Cell} {c : Cpu} {p q : Word}
    (hp : L.address? c.x c.y k.lo = some p) (hq : L.address? c.x c.y k.hi = some q) (hpq : p ≠ q) :
    ∃ d, L.run (o.onCell k) c = some d ∧
      c.Writes (c.mem.put p q (o.apply c.carry (.ofBytes (c.mem q) (c.mem p)))) d := by
  have hqp := hpq.symm
  cases o with
  | shiftLeft =>
    simp [onCell, shift_of_address hp, shift_of_address hq, hqp]
    refine ⟨rfl, rfl, rfl, ?_⟩
    rw [apply, ← Word.ofBytes_shiftLeft c.carry, Memory.put_ofBytes]
  | shiftRight =>
    simp [onCell, shift_of_address hp, shift_of_address hq, hpq]
    refine ⟨rfl, rfl, rfl, ?_⟩
    rw [apply, ← Word.ofBytes_shiftRight c.carry, Memory.put_ofBytes_comm _ _ _ hpq]
  | rotateLeft =>
    simp [onCell, shift_of_address hp, shift_of_address hq, hqp]
    refine ⟨rfl, rfl, rfl, ?_⟩
    rw [apply, ← Word.ofBytes_rotateLeftCarry, Memory.put_ofBytes]
  | rotateRight =>
    simp [onCell, shift_of_address hp, shift_of_address hq, hpq]
    refine ⟨rfl, rfl, rfl, ?_⟩
    rw [apply, ← Word.ofBytes_rotateRightCarry, Memory.put_ofBytes_comm _ _ _ hpq]
  | spinLeft =>
    have hw := Word.ofBytes_rotateLeft c.carry (c.mem q) (c.mem p)
    cases hb : (Shift.rol (Shift.asl c.carry (c.mem p)).1 (c.mem q)).1 with
    | false =>
      simp [onCell, shift_of_address hp, shift_of_address hq, hqp, hb]
      refine ⟨rfl, rfl, rfl, ?_⟩
      rw [hb, if_neg Bool.false_ne_true] at hw
      rw [apply, ← hw, Memory.put_ofBytes]
    | true =>
      simp [onCell, shift_of_address hp, shift_of_address hq, change_of_address hp, hpq, hqp, hb]
      refine ⟨rfl, rfl, rfl, ?_⟩
      rw [hb, if_pos rfl] at hw
      rw [apply, ← hw, Memory.put_ofBytes_comm _ _ _ hpq]
      exact Memory.update_again _ hpq _ _ _
  | spinRight =>
    have hw := Word.ofBytes_rotateRight c.carry (c.mem q) (c.mem p)
    cases hb : (Shift.ror (Shift.lsr c.carry (c.mem q)).1 (c.mem p)).1 with
    | false =>
      simp [onCell, shift_of_address hp, shift_of_address hq, hpq, hb]
      refine ⟨rfl, rfl, rfl, ?_⟩
      rw [hb, if_neg Bool.false_ne_true] at hw
      rw [apply, ← hw, Memory.put_ofBytes_comm _ _ _ hpq]
    | true =>
      simp [onCell, shift_of_address hp, shift_of_address hq, load_of_address hq,
        save_of_address hq, hpq, hqp, hb]
      refine ⟨rfl, rfl, rfl, ?_⟩
      rw [hb, if_pos rfl] at hw
      rw [apply, ← hw, Memory.put_ofBytes]
      exact Memory.update_again _ hqp _ _ _
  | byteUp =>
    simp [onCell, load_of_address hp, save_of_address hp, save_of_address hq]
    refine ⟨rfl, rfl, rfl, ?_⟩
    rw [apply, ← Word.ofBytes_byteUp, Memory.put_ofBytes_comm _ _ _ hpq]
  | byteDown =>
    simp [onCell, load_of_address hq, save_of_address hp, save_of_address hq]
    refine ⟨rfl, rfl, rfl, ?_⟩
    rw [apply, ← Word.ofBytes_byteDown, Memory.put_ofBytes]
  | complement =>
    have hv (v : Byte) : v ^^^ 0xff#8 = ~~~v := by
      revert v; decide +kernel
    simp [onCell, load_of_address hp, load_of_address hq, save_of_address hp, save_of_address hq,
      hqp]
    refine ⟨rfl, rfl, rfl, ?_⟩
    rw [apply, ← Word.ofBytes_not, Memory.put_ofBytes, hv, hv]
  | negate =>
    simp [onCell, load_of_address hp, load_of_address hq, save_of_address hp, save_of_address hq,
      hqp]
    refine ⟨rfl, rfl, rfl, ?_⟩
    rw [apply, ← Word.ofBytes_neg, Memory.put_ofBytes]

open Asm

theorem run_incWord {L : Layout} {k : Cell} {c : Cpu} {p q : Word}
    (hp : L.address? c.x c.y k.lo = some p) (hq : L.address? c.x c.y k.hi = some q) (hpq : p ≠ q) :
    ∃ d, L.run [inc k.lo, bne next, inc k.hi, here] c = some d ∧
      c.Writes (c.mem.put p q (.ofBytes (c.mem q) (c.mem p) + 1#16)) d := by
  have hw := Word.ofBytes_succ (c.mem q) (c.mem p)
  cases hz : c.mem p + 1#8 == 0#8 with
  | true =>
    rw [if_pos (beq_iff_eq.mp hz)] at hw
    simp [change_of_address hp, change_of_address hq, hpq.symm, hz]
    refine ⟨rfl, rfl, rfl, ?_⟩
    rw [← hw, Memory.put_ofBytes]
  | false =>
    rw [if_neg (beq_eq_false_iff_ne.mp hz)] at hw
    simp [change_of_address hp, hz]
    refine ⟨rfl, rfl, rfl, ?_⟩
    rw [← hw, Memory.put_ofBytes_comm _ _ _ hpq, Function.update_eq_self]

theorem run_decWord {L : Layout} {k : Cell} {c : Cpu} {p q : Word}
    (hp : L.address? c.x c.y k.lo = some p) (hq : L.address? c.x c.y k.hi = some q) (hpq : p ≠ q) :
    ∃ d, L.run [lda k.lo, bne next, dec k.hi, here, dec k.lo] c = some d ∧
      c.Writes (c.mem.put p q (.ofBytes (c.mem q) (c.mem p) - 1#16)) d := by
  have hw := Word.ofBytes_pred (c.mem q) (c.mem p)
  cases hz : c.mem p == 0#8 with
  | true =>
    rw [if_pos (beq_iff_eq.mp hz)] at hw
    simp [load_of_address hp, change_of_address hp, change_of_address hq, hpq, hz]
    refine ⟨rfl, rfl, rfl, ?_⟩
    rw [← hw, Memory.put_ofBytes_comm _ _ _ hpq]
  | false =>
    rw [if_neg (beq_eq_false_iff_ne.mp hz)] at hw
    simp [load_of_address hp, change_of_address hp, hz]
    refine ⟨rfl, rfl, rfl, ?_⟩
    rw [← hw, Memory.put_ofBytes_comm _ _ _ hpq, Function.update_eq_self]

end Stack6502
