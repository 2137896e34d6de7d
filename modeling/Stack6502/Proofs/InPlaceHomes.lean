import Stack6502.Proofs.InPlace

/-!
# Operations in every home

Values in registers are operated on through A, a byte of the zero page and the hardware stack. All
homes of a value agree in what they hold afterwards, and none disturbs the memory of others.
-/
namespace Stack6502

open Layout Asm

/-- Memory that code may use for itself: a byte of the zero page, the two bytes that the library
works on and the hardware stack. -/
def IsWorkspace (r : Word) : Prop := r = 0x02 ∨ r = 0xfb ∨ r = 0xfc ∨ r.high = 0x01

instance (r : Word) : Decidable (IsWorkspace r) := inferInstanceAs (Decidable (_ ∨ _))

@[simp] theorem isWorkspace_stackAddress (s : Byte) : IsWorkspace (Cpu.stackAddress s) :=
  .inr (.inr (.inr (Word.high_ofBytes ..)))

theorem update_of_isWorkspace {r p : Word} (hr : ¬ IsWorkspace r) (hp : IsWorkspace p) (m : Memory)
    (v : Byte) : Function.update m p v r = m r := by
  have hne : r ≠ p := by
    rintro rfl
    exact hr hp
  rw [Function.update_of_ne hne]

namespace Cpu

@[simp] theorem scratch_ne_stackAddress (s : Byte) : 0x02#16 ≠ stackAddress s := by
  intro heq
  have hhigh := congrArg Word.high heq
  rw [stackAddress, Word.high_ofBytes] at hhigh
  exact absurd hhigh (by decide)

end Cpu

namespace Layout

variable {L : Layout} {c : Cpu}

@[simp] theorem value_address (a : Int64) : L.value (.address a) = a.toInt := rfl

/-- The library rotates the word at `$fb` right. It may use A, Y, the flags and the workspace. -/
structure SpinsRight (L : Layout) : Prop where
  word (c : Cpu) :
    let d := L.routine "tglib.ror2_word" c
    Word.ofBytes (d.mem 0xfc) (d.mem 0xfb) = (Word.ofBytes (c.mem 0xfc) (c.mem 0xfb)).rotateRight 1
  x (c : Cpu) : (L.routine "tglib.ror2_word" c).x = c.x
  sp (c : Cpu) : (L.routine "tglib.ror2_word" c).sp = c.sp
  mem (c : Cpu) {r : Word} (hr : ¬ IsWorkspace r) : (L.routine "tglib.ror2_word" c).mem r = c.mem r

@[simp] theorem run_library_spin (ls : List Line) :
    L.run (library "ror2_word" :: ls) c = L.run ls (L.routine "tglib.ror2_word" c) := rfl

/-- The routine after a word is stored where it expects it. -/
theorem SpinsRight.stored (hspins : L.SpinsRight) (c : Cpu) (l h : Byte) :
    let d := L.routine "tglib.ror2_word"
      { c with mem := Function.update (Function.update c.mem 0xfb l) 0xfc h }
    Word.ofBytes (d.mem 0xfc) (d.mem 0xfb) = (Word.ofBytes h l).rotateRight 1 ∧ d.x = c.x ∧
      d.sp = c.sp ∧ ∀ r, ¬ IsWorkspace r → d.mem r = c.mem r := by
  refine ⟨?_, hspins.x _, hspins.sp _, fun r hr => ?_⟩
  · rw [hspins.word]
    simp
  · rw [hspins.mem _ hr]
    exact (update_of_isWorkspace hr (by decide) ..).trans (update_of_isWorkspace hr (by decide) ..)

end Layout

/-! ### Bits and sums -/

namespace Word

theorem msb_ofBytes (h l : Byte) : (ofBytes h l).msb = h.msb := by
  rw [ofBytes, BitVec.msb_append]
  rfl

theorem getElem_ofBytes_zero (h l : Byte) : (ofBytes h l)[0] = l[0] := by
  rw [← BitVec.getLsbD_eq_getElem, ofBytes, BitVec.getLsbD_append]
  rfl

/-- The bit that is shifted out is added at the other end. -/
theorem ofBytes_rotateLeft_sum (c : Bool) (h l : Byte) :
    ofBytes (Shift.rol (Shift.asl c l).1 h).2
      (Byte.sum (Shift.rol (Shift.asl c l).1 h).1 (Shift.asl c l).2 0#8).2 =
        (ofBytes h l).rotateLeft 1 := by
  have hsum (carry : Bool) (v : Byte) :
      (Byte.sum carry v 0#8).2 = if carry then v + 1#8 else v := by
    revert carry v; decide +kernel
  rw [hsum, ofBytes_rotateLeft]

/-- Negation as the complement and one more. -/
theorem ofBytes_neg_not (h l : Byte) :
    ofBytes (Byte.sum (Byte.sum false (~~~l) 1#8).1 (~~~h) 0#8).2 (Byte.sum false (~~~l) 1#8).2 =
      -ofBytes h l := by
  apply BitVec.eq_of_toNat_eq
  have hl := l.isLt
  have hh := h.isLt
  simp only [toNat_ofBytes, Byte.toNat_sum, Byte.toNat_sum_carry, BitVec.toNat_neg,
    BitVec.toNat_not, BitVec.toNat_ofNat, Bool.toNat_false]
  omega

end Word

theorem Byte.xor_ff (v : Byte) : v ^^^ 0xff#8 = ~~~v := by
  revert v; decide +kernel

namespace ByteOp

def shiftedOut (v : Byte) : ByteOp → Option Bool
  | .shiftLeft | .rotateLeft => some v.msb
  | .shiftRight | .rotateRight => some (v.getLsbD 0)
  | _ => none

structure Yields (o : ByteOp) (carry : Bool) (v : Byte) (carry' : Bool) (v' : Byte) : Prop where
  byte : v' = o.apply carry v
  carry : ∀ b ∈ o.shiftedOut v, carry' = b

variable (c : Bool) (v : Byte)

theorem yields_shiftLeft : Yields .shiftLeft c v (Shift.asl c v).1 (Shift.asl c v).2 :=
  ⟨rfl, by simp [shiftedOut, Shift.asl]⟩

theorem yields_shiftRight : Yields .shiftRight c v (Shift.lsr c v).1 (Shift.lsr c v).2 :=
  ⟨rfl, by simp [shiftedOut, Shift.lsr]⟩

theorem yields_rotateLeft : Yields .rotateLeft c v (Shift.rol c v).1 (Shift.rol c v).2 := by
  refine ⟨?_, by simp [shiftedOut, Shift.rol]⟩
  revert c v; decide +kernel

theorem yields_rotateRight : Yields .rotateRight c v (Shift.ror c v).1 (Shift.ror c v).2 := by
  refine ⟨?_, by simp [shiftedOut, Shift.ror]⟩
  revert c v; decide +kernel

end ByteOp

namespace WordOp

def shiftedOut (w : Word) : WordOp → Option Bool
  | .shiftLeft | .rotateLeft => some w.msb
  | .shiftRight | .rotateRight => some (w.getLsbD 0)
  | _ => none

structure Yields (o : WordOp) (carry : Bool) (w : Word) (carry' : Bool) (w' : Word) : Prop where
  word : w' = o.apply carry w
  carry : ∀ b ∈ o.shiftedOut w, carry' = b

section

variable (c : Bool) (h l : Byte)

theorem yields_shiftLeft : Yields .shiftLeft c (.ofBytes h l) (Shift.rol (Shift.asl c l).1 h).1
    (.ofBytes (Shift.rol (Shift.asl c l).1 h).2 (Shift.asl c l).2) :=
  ⟨Word.ofBytes_shiftLeft c h l, by simp [shiftedOut, Word.msb_ofBytes, Shift.rol]⟩

theorem yields_shiftRight : Yields .shiftRight c (.ofBytes h l) (Shift.ror (Shift.lsr c h).1 l).1
    (.ofBytes (Shift.lsr c h).2 (Shift.ror (Shift.lsr c h).1 l).2) :=
  ⟨Word.ofBytes_shiftRight c h l, by simp [shiftedOut, Word.getElem_ofBytes_zero, Shift.ror]⟩

theorem yields_rotateLeft : Yields .rotateLeft c (.ofBytes h l) (Shift.rol (Shift.rol c l).1 h).1
    (.ofBytes (Shift.rol (Shift.rol c l).1 h).2 (Shift.rol c l).2) :=
  ⟨Word.ofBytes_rotateLeftCarry c h l, by simp [shiftedOut, Word.msb_ofBytes, Shift.rol]⟩

theorem yields_rotateRight : Yields .rotateRight c (.ofBytes h l) (Shift.ror (Shift.ror c h).1 l).1
    (.ofBytes (Shift.ror c h).2 (Shift.ror (Shift.ror c h).1 l).2) :=
  ⟨Word.ofBytes_rotateRightCarry c h l, by simp [shiftedOut, Word.getElem_ofBytes_zero, Shift.ror]⟩

end

end WordOp

/-! ### Values and their homes -/

namespace Home

/-- The byte in a home; a variable is at `p`. -/
def byte? (p : Word) (c : Cpu) : Home → Option Byte
  | .reg .a => some c.a
  | .reg .x => some c.x
  | .reg .y => some c.y
  | .var | .mem => some (c.mem p)
  | .pair _ => none

def word? (p q : Word) (c : Cpu) : Home → Option Word
  | .pair .ax => some (.ofBytes c.x c.a)
  | .pair .ay => some (.ofBytes c.y c.a)
  | .pair .xy => some (.ofBytes c.y c.x)
  | .var | .mem => some (.ofBytes (c.mem q) (c.mem p))
  | .reg _ => none

def usesX : Home → Bool
  | .reg .x | .pair .ax | .pair .xy => true
  | _ => false

/-- Nothing changes but registers, the bytes of the home and the workspace; X changes only as a part
of the home. -/
structure Keeps (home : Home) (bytes : List Word) (c d : Cpu) : Prop where
  sp : d.sp = c.sp
  x : home.usesX = false → d.x = c.x
  mem : ∀ r, ¬ IsWorkspace r → (home.isRegister = false → r ∉ bytes) → d.mem r = c.mem r

end Home

/-! ### Bytes -/

namespace ByteOp

variable {L : Layout} (o : ByteOp)

theorem run_onAccumulator (c : Cpu) : ∃ d, L.run o.onAccumulator c = some d ∧
    o.Yields c.carry c.a d.carry d.a ∧ c.Writes c.mem d := by
  cases o with
  | shiftLeft =>
    simp [onAccumulator]
    exact ⟨yields_shiftLeft .., rfl, rfl, rfl, rfl⟩
  | shiftRight =>
    simp [onAccumulator]
    exact ⟨yields_shiftRight .., rfl, rfl, rfl, rfl⟩
  | rotateLeft =>
    simp [onAccumulator]
    exact ⟨yields_rotateLeft .., rfl, rfl, rfl, rfl⟩
  | rotateRight =>
    simp [onAccumulator]
    exact ⟨yields_rotateRight .., rfl, rfl, rfl, rfl⟩
  | spinLeft =>
    have hv (v : Byte) : (Shift.rol (BitVec.ule 0x80#8 v) v).2 = v.rotateLeft 1 := by
      revert v; decide +kernel
    simp [onAccumulator]
    exact ⟨⟨hv c.a, nofun⟩, rfl, rfl, rfl, rfl⟩
  | spinRight =>
    have hv (b : Bool) (v : Byte) : (if (Shift.lsr b v).1 then (Shift.lsr b v).2 ||| 0x80#8
        else (Shift.lsr b v).2) = v.rotateRight 1 := by
      revert b v; decide +kernel
    have ha := hv c.carry c.a
    cases hb : (Shift.lsr c.carry c.a).1 with
    | false | true =>
      simp [onAccumulator, hb]
      simp only [hb, if_true, if_false, Bool.false_eq_true] at ha
      exact ⟨⟨ha, nofun⟩, rfl, rfl, rfl, rfl⟩
  | complement =>
    simp [onAccumulator]
    exact ⟨⟨Byte.xor_ff c.a, nofun⟩, rfl, rfl, rfl, rfl⟩
  | negate =>
    have hv (v : Byte) : (Byte.sum false (v ^^^ 0xff#8) 1#8).2 = -v := by
      revert v; decide +kernel
    simp [onAccumulator]
    exact ⟨⟨hv c.a, nofun⟩, rfl, rfl, rfl, rfl⟩

theorem carry_onLocation {lo : Operand} {c d : Cpu} {p : Word}
    (hp : L.address? c.x c.y lo = some p) (hd : L.run (o.onLocation lo) c = some d) :
    ∀ b ∈ o.shiftedOut (c.mem p), d.carry = b := by
  cases o with
  | shiftLeft | shiftRight | rotateLeft | rotateRight =>
    simp [onLocation, shift_of_address hp] at hd
    subst hd
    simp [shiftedOut, Shift.asl, Shift.lsr, Shift.rol, Shift.ror]
  | _ => simp [shiftedOut]

end ByteOp

namespace WordOp

variable {L : Layout} (o : WordOp) (c : Cpu) (bytes : List Word)

theorem run_onAX (hspins : L.SpinsRight) : ∃ d, L.run o.onAX c = some d ∧
    o.Yields c.carry (.ofBytes c.x c.a) d.carry (.ofBytes d.x d.a) ∧
      (Home.pair .ax).Keeps bytes c d := by
  cases o with
  | shiftLeft =>
    simp [onAX]
    exact ⟨yields_shiftLeft .., rfl, nofun, fun _ _ _ => rfl⟩
  | shiftRight =>
    simp [onAX]
    exact ⟨yields_shiftRight .., rfl, nofun, fun _ _ _ => rfl⟩
  | rotateLeft =>
    simp [onAX]
    exact ⟨yields_rotateLeft .., rfl, nofun, fun _ _ _ => rfl⟩
  | rotateRight =>
    simp [onAX]
    exact ⟨yields_rotateRight .., rfl, nofun, fun _ _ _ => rfl⟩
  | spinLeft =>
    simp [onAX, scratch]
    refine ⟨⟨Word.ofBytes_rotateLeft_sum .., nofun⟩, rfl, nofun, fun r hr _ => ?_⟩
    exact update_of_isWorkspace hr (by decide) ..
  | spinRight =>
    obtain ⟨hword, hx, hsp, hmem⟩ := hspins.stored c c.a c.x
    simp [onAX, pointerLow, pointerHigh]
    exact ⟨⟨hword, nofun⟩, hsp, nofun, fun r hr _ => hmem r hr⟩
  | byteUp =>
    simp [onAX]
    exact ⟨⟨Word.ofBytes_byteUp .., nofun⟩, rfl, nofun, fun _ _ _ => rfl⟩
  | byteDown =>
    simp [onAX]
    exact ⟨⟨Word.ofBytes_byteDown .., nofun⟩, rfl, nofun, fun _ _ _ => rfl⟩
  | complement =>
    simp [onAX, Cpu.push, Cpu.pull, Byte.xor_ff]
    refine ⟨⟨Word.ofBytes_not .., nofun⟩, rfl, nofun, fun r hr _ => ?_⟩
    exact update_of_isWorkspace hr (isWorkspace_stackAddress _) ..
  | negate =>
    simp [onAX, scratch, Cpu.push, Cpu.pull, Byte.xor_ff]
    refine ⟨⟨Word.ofBytes_neg_not .., nofun⟩, rfl, nofun, fun r hr _ => ?_⟩
    exact (update_of_isWorkspace hr (isWorkspace_stackAddress _) ..).trans
      (update_of_isWorkspace hr (by decide) ..)

theorem run_onAY (hspins : L.SpinsRight) : ∃ d, L.run o.onAY c = some d ∧
    o.Yields c.carry (.ofBytes c.y c.a) d.carry (.ofBytes d.y d.a) ∧
      (Home.pair .ay).Keeps bytes c d := by
  cases o with
  | shiftLeft =>
    simp [onAY, scratch]
    refine ⟨yields_shiftLeft .., rfl, fun _ => rfl, fun r hr _ => ?_⟩
    exact update_of_isWorkspace hr (by decide) ..
  | shiftRight =>
    simp [onAY, scratch]
    refine ⟨yields_shiftRight .., rfl, fun _ => rfl, fun r hr _ => ?_⟩
    exact update_of_isWorkspace hr (by decide) ..
  | rotateLeft =>
    simp [onAY, scratch]
    refine ⟨yields_rotateLeft .., rfl, fun _ => rfl, fun r hr _ => ?_⟩
    exact update_of_isWorkspace hr (by decide) ..
  | rotateRight =>
    simp [onAY, scratch]
    refine ⟨yields_rotateRight .., rfl, fun _ => rfl, fun r hr _ => ?_⟩
    exact update_of_isWorkspace hr (by decide) ..
  | spinLeft =>
    simp [onAY, scratch]
    refine ⟨⟨Word.ofBytes_rotateLeft_sum .., nofun⟩, rfl, fun _ => rfl, fun r hr _ => ?_⟩
    exact update_of_isWorkspace hr (by decide) ..
  | spinRight =>
    obtain ⟨hword, hx, hsp, hmem⟩ := hspins.stored c c.a c.y
    simp [onAY, pointerLow, pointerHigh]
    exact ⟨⟨hword, nofun⟩, hsp, fun _ => hx, fun r hr _ => hmem r hr⟩
  | byteUp =>
    simp [onAY]
    exact ⟨⟨Word.ofBytes_byteUp .., nofun⟩, rfl, fun _ => rfl, fun _ _ _ => rfl⟩
  | byteDown =>
    simp [onAY]
    exact ⟨⟨Word.ofBytes_byteDown .., nofun⟩, rfl, fun _ => rfl, fun _ _ _ => rfl⟩
  | complement =>
    simp [onAY, Cpu.push, Cpu.pull, Byte.xor_ff]
    refine ⟨⟨Word.ofBytes_not .., nofun⟩, rfl, fun _ => rfl, fun r hr _ => ?_⟩
    exact update_of_isWorkspace hr (isWorkspace_stackAddress _) ..
  | negate =>
    simp [onAY, scratch, Cpu.push, Cpu.pull, Byte.xor_ff]
    refine ⟨⟨Word.ofBytes_neg_not .., nofun⟩, rfl, fun _ => rfl, fun r hr _ => ?_⟩
    exact (update_of_isWorkspace hr (isWorkspace_stackAddress _) ..).trans
      (update_of_isWorkspace hr (by decide) ..)

theorem run_onXY (hspins : L.SpinsRight) : ∃ d, L.run o.onXY c = some d ∧
    o.Yields c.carry (.ofBytes c.y c.x) d.carry (.ofBytes d.y d.x) ∧
      (Home.pair .xy).Keeps bytes c d := by
  cases o with
  | shiftLeft =>
    simp [onXY, scratch]
    refine ⟨yields_shiftLeft .., rfl, nofun, fun r hr _ => ?_⟩
    exact update_of_isWorkspace hr (by decide) ..
  | shiftRight =>
    simp [onXY, scratch]
    refine ⟨yields_shiftRight .., rfl, nofun, fun r hr _ => ?_⟩
    exact update_of_isWorkspace hr (by decide) ..
  | rotateLeft =>
    simp [onXY, scratch]
    refine ⟨yields_rotateLeft .., rfl, nofun, fun r hr _ => ?_⟩
    exact update_of_isWorkspace hr (by decide) ..
  | rotateRight =>
    simp [onXY, scratch]
    refine ⟨yields_rotateRight .., rfl, nofun, fun r hr _ => ?_⟩
    exact update_of_isWorkspace hr (by decide) ..
  | spinLeft =>
    simp [onXY, pointerLow, pointerHigh]
    refine ⟨⟨Word.ofBytes_rotateLeft_sum .., nofun⟩, rfl, nofun, fun r hr _ => ?_⟩
    simp (disch := decide) only [update_of_isWorkspace hr]
  | spinRight =>
    obtain ⟨hword, hx, hsp, hmem⟩ := hspins.stored c c.x c.y
    simp [onXY, pointerLow, pointerHigh]
    exact ⟨⟨hword, nofun⟩, hsp, nofun, fun r hr _ => hmem r hr⟩
  | byteUp =>
    simp [onXY]
    exact ⟨⟨Word.ofBytes_byteUp .., nofun⟩, rfl, nofun, fun _ _ _ => rfl⟩
  | byteDown =>
    simp [onXY]
    exact ⟨⟨Word.ofBytes_byteDown .., nofun⟩, rfl, nofun, fun _ _ _ => rfl⟩
  | complement =>
    simp [onXY, Byte.xor_ff]
    exact ⟨⟨Word.ofBytes_not .., nofun⟩, rfl, nofun, fun _ _ _ => rfl⟩
  | negate =>
    simp [onXY, Byte.xor_ff]
    exact ⟨⟨Word.ofBytes_neg_not .., nofun⟩, rfl, nofun, fun _ _ _ => rfl⟩

theorem carry_onCell {k : Cell} {c d : Cpu} {p q : Word}
    (hp : L.address? c.x c.y k.lo = some p) (hq : L.address? c.x c.y k.hi = some q) (hpq : p ≠ q)
    (hd : L.run (o.onCell k) c = some d) :
    ∀ b ∈ o.shiftedOut (.ofBytes (c.mem q) (c.mem p)), d.carry = b := by
  have hqp := hpq.symm
  cases o with
  | shiftLeft =>
    simp [onCell, shift_of_address hp, shift_of_address hq, hqp] at hd
    subst hd
    exact (yields_shiftLeft c.carry ..).carry
  | shiftRight =>
    simp [onCell, shift_of_address hp, shift_of_address hq, hpq] at hd
    subst hd
    exact (yields_shiftRight c.carry ..).carry
  | rotateLeft =>
    simp [onCell, shift_of_address hp, shift_of_address hq, hqp] at hd
    subst hd
    exact (yields_rotateLeft c.carry ..).carry
  | rotateRight =>
    simp [onCell, shift_of_address hp, shift_of_address hq, hpq] at hd
    subst hd
    exact (yields_rotateRight c.carry ..).carry
  | _ => simp [shiftedOut]

end WordOp

/-! ### All homes -/

section Homes

variable {L : Layout} {c : Cpu} {k : Cell} {home : Home} {p q : Word} {code : Code}

theorem ByteOp.run_onLocation_yields (o : ByteOp) (hp : L.address? c.x c.y k.lo = some p) :
    ∃ d, L.run (o.onLocation k.lo) c = some d ∧
      o.Yields c.carry (c.mem p) d.carry (d.mem p) ∧ Home.var.Keeps [p] c d := by
  obtain ⟨d, hd, hwrites⟩ := o.run_onLocation hp
  refine ⟨d, hd, ⟨?_, o.carry_onLocation hp hd⟩, hwrites.sp, fun _ => hwrites.x, fun r _ hr => ?_⟩
  · rw [hwrites.mem, Function.update_self]
  · have hne : r ≠ p := List.ne_of_not_mem_cons (hr rfl)
    rw [hwrites.mem, Function.update_of_ne hne]

/-- A register is brought into A and taken back from it. -/
theorem ByteOp.run_through_accumulator (o : ByteOp) (into back : Line) {e : Cpu} {f : Cpu → Cpu}
    (hinto : L.run [into] c = some e) (hback : ∀ d, L.run [back] d = some (f d)) :
    ∃ d, L.run (Code.lines [[into], o.onAccumulator ++ [back]]) c = some (f d) ∧
      o.Yields e.carry e.a d.carry d.a ∧ e.Writes e.mem d := by
  obtain ⟨d, hd, hyields, hwrites⟩ := o.run_onAccumulator (L := L) e
  refine ⟨d, ?_, hyields, hwrites⟩
  simp only [Code.lines, List.flatten_cons, List.flatten_nil, List.append_nil]
  rw [run_append hinto, run_append hd, hback]

theorem ByteOp.run_code (o : ByteOp) (hcode : o.code k.lo home = some code)
    (hp : home.isRegister = false → L.address? c.x c.y k.lo = some p) :
    ∃ v v' d, home.byte? p c = some v ∧ L.run code.lines c = some d ∧ home.byte? p d = some v' ∧
      o.Yields c.carry v d.carry v' ∧ home.Keeps [p] c d := by
  cases home with
  | reg r =>
    cases r with
    | a =>
      cases hcode
      obtain ⟨d, hd, hyields, hwrites⟩ := o.run_onAccumulator (L := L) c
      refine ⟨c.a, d.a, d, rfl, by simpa [Code.lines] using hd, rfl, hyields, hwrites.sp, ?_, ?_⟩
      · exact fun _ => hwrites.x
      · exact fun r _ _ => congrFun hwrites.mem r
    | x =>
      cases hcode
      obtain ⟨d, hd, hyields, hwrites⟩ :=
        o.run_through_accumulator (L := L) (c := c) txa tax rfl fun _ => rfl
      exact ⟨c.x, d.a, _, rfl, hd, rfl, hyields, hwrites.sp, nofun,
        fun r _ _ => congrFun hwrites.mem r⟩
    | y =>
      cases hcode
      obtain ⟨d, hd, hyields, hwrites⟩ :=
        o.run_through_accumulator (L := L) (c := c) tya tay rfl fun _ => rfl
      exact ⟨c.y, d.a, _, rfl, hd, rfl, hyields, hwrites.sp, fun _ => hwrites.x,
        fun r _ _ => congrFun hwrites.mem r⟩
  | pair => cases hcode
  | var | mem =>
    cases hcode
    obtain ⟨d, hd, hyields, hkeeps⟩ := o.run_onLocation_yields (hp rfl)
    exact ⟨c.mem p, d.mem p, d, rfl, by simpa [Code.lines] using hd, rfl, hyields, hkeeps.sp,
      fun _ => hkeeps.x rfl, hkeeps.mem⟩

theorem WordOp.run_onCell_yields (o : WordOp) (hp : L.address? c.x c.y k.lo = some p)
    (hq : L.address? c.x c.y k.hi = some q) (hpq : p ≠ q) :
    ∃ d, L.run (o.onCell k) c = some d ∧
      o.Yields c.carry (.ofBytes (c.mem q) (c.mem p)) d.carry (.ofBytes (d.mem q) (d.mem p)) ∧
      Home.var.Keeps [p, q] c d := by
  obtain ⟨d, hd, hwrites⟩ := o.run_onCell hp hq hpq
  refine ⟨d, hd, ⟨?_, o.carry_onCell hp hq hpq hd⟩, hwrites.sp, fun _ => hwrites.x, ?_⟩
  · rw [hwrites.mem, Memory.put, Function.update_self, Function.update_of_ne hpq,
      Function.update_self, Word.ofBytes_high_low]
  · intro r _ hr
    obtain ⟨hrp, hrq⟩ : r ≠ p ∧ r ≠ q := by simpa using hr rfl
    rw [hwrites.mem, Memory.put, Function.update_of_ne hrq, Function.update_of_ne hrp]

theorem WordOp.run_code (o : WordOp) (hspins : L.SpinsRight) (hcode : o.code k home = some code)
    (hpq : home.isRegister = false →
      L.address? c.x c.y k.lo = some p ∧ L.address? c.x c.y k.hi = some q ∧ p ≠ q) :
    ∃ w w' d, home.word? p q c = some w ∧ L.run code.lines c = some d ∧
      home.word? p q d = some w' ∧ o.Yields c.carry w d.carry w' ∧ home.Keeps [p, q] c d := by
  cases home with
  | reg => cases hcode
  | pair r =>
    cases r with
    | ax =>
      cases hcode
      obtain ⟨d, hd, hyields, hkeeps⟩ := o.run_onAX c [p, q] hspins
      exact ⟨_, _, d, rfl, by simpa [Code.lines] using hd, rfl, hyields, hkeeps⟩
    | ay =>
      cases hcode
      obtain ⟨d, hd, hyields, hkeeps⟩ := o.run_onAY c [p, q] hspins
      exact ⟨_, _, d, rfl, by simpa [Code.lines] using hd, rfl, hyields, hkeeps⟩
    | xy =>
      cases hcode
      obtain ⟨d, hd, hyields, hkeeps⟩ := o.run_onXY c [p, q] hspins
      exact ⟨_, _, d, rfl, by simpa [Code.lines] using hd, rfl, hyields, hkeeps⟩
  | var | mem =>
    cases hcode
    obtain ⟨hp, hq, hne⟩ := hpq rfl
    obtain ⟨d, hd, hyields, hkeeps⟩ := o.run_onCell_yields hp hq hne
    exact ⟨_, _, d, rfl, by simpa [Code.lines] using hd, rfl, hyields, hkeeps.sp,
      fun _ => hkeeps.x rfl, hkeeps.mem⟩

/-- An operation on a byte has code for all homes but pairs, and one on a word for all but single
registers. In a processor of any state the code leaves the result in the home, with the bit that
was shifted out in the carry, and keeps what is not the home's. -/
theorem inPlace_computes (hspins : L.SpinsRight) (c : Cpu) (k : Cell) (home : Home) (p q : Word)
    (hp : home.isRegister = false → L.address? c.x c.y k.lo = some p) :
    (∀ op o, ByteOp.ofOpcode? op = some o →
      (inPlace (.known op) .byte k home = none ↔ ∃ r, home = .pair r) ∧
      ∀ code ∈ inPlace (.known op) .byte k home, ∃ v v' d, home.byte? p c = some v ∧
        L.run code.lines c = some d ∧ home.byte? p d = some v' ∧
        o.Yields c.carry v d.carry v' ∧ home.Keeps [p] c d) ∧
    ((home.isRegister = false → L.address? c.x c.y k.hi = some q ∧ p ≠ q) →
      ∀ op o, WordOp.ofOpcode? op = some o →
        (inPlace (.known op) .word k home = none ↔ ∃ r, home = .reg r) ∧
        ∀ code ∈ inPlace (.known op) .word k home, ∃ w w' d, home.word? p q c = some w ∧
          L.run code.lines c = some d ∧ home.word? p q d = some w' ∧
          o.Yields c.carry w d.carry w' ∧ home.Keeps [p, q] c d) := by
  constructor
  · intro op o ho
    have hcode : inPlace (.known op) .byte k home = o.code k.lo home := by
      simp [inPlace, ho]
    rw [hcode]
    refine ⟨?_, fun code hmem => o.run_code hmem hp⟩
    rcases home with ⟨_ | _ | _⟩ | _ | _ | _ <;> simp [ByteOp.code]
  · intro hq op o ho
    have hcode : inPlace (.known op) .word k home = o.code k home := by
      simp [inPlace, ho]
    rw [hcode]
    refine ⟨?_, fun code hmem => o.run_code hspins hmem fun hvar => ⟨hp hvar, hq hvar⟩⟩
    rcases home with _ | ⟨_ | _ | _⟩ | _ | _ <;> simp [WordOp.code]

end Homes

namespace Rotating

/-- An array at `$2000`, and a library that rotates the word and does nothing else. -/
def layout : Layout where
  address _ := 0x2000
  routine _ c :=
    { c with mem := c.mem.put 0xfb 0xfc ((Word.ofBytes (c.mem 0xfc) (c.mem 0xfb)).rotateRight 1) }

theorem spinsRight : layout.SpinsRight where
  word c := by simp [layout, Memory.put]
  x _ := rfl
  sp _ := rfl
  mem c r hr := (update_of_isWorkspace hr (by decide) ..).trans
    (update_of_isWorkspace hr (by decide) ..)

/-- The word `$8001` in A and Y, the carry, and the word `$0181` at element 3. -/
def cpu : Cpu :=
  ⟨0x01, 3, 0x80, 0xff, true, false, false, false, fun r => if r = 0x2003 then 0x81 else 0x01⟩

end Rotating

open Rotating in
theorem inPlace_computes_rotating :
    (∃ d, layout.run (WordOp.rotateRight.onCell (.indexed "arr")) cpu = some d ∧
      Word.ofBytes (d.mem 0x2004) (d.mem 0x2003) = 0x80c0 ∧ d.carry = true ∧ d.x = 3) ∧
    ∃ d, layout.run WordOp.spinRight.onAY cpu = some d ∧ Word.ofBytes d.y d.a = 0xc000 ∧
      d.x = 3 ∧ d.mem 0x2003 = 0x81 := by
  constructor
  · obtain ⟨-, hcode⟩ := (inPlace_computes spinsRight cpu (.indexed "arr") .var 0x2003 0x2004
      fun _ => by decide).2 (fun _ => by decide) .rorWord .rotateRight rfl
    obtain ⟨w, w', d, hw, hd, hw', hyields, hkeeps⟩ := hcode _ rfl
    cases hw
    cases hw'
    exact ⟨d, hd, hyields.word.trans (by decide), hyields.carry true (by decide), hkeeps.x rfl⟩
  · obtain ⟨-, hcode⟩ := (inPlace_computes spinsRight cpu (.named "AY") (.pair .ay) 0 1 nofun).2
      nofun .ror2Word .spinRight rfl
    obtain ⟨w, w', d, hw, hd, hw', hyields, hkeeps⟩ := hcode _ rfl
    cases hw
    cases hw'
    exact ⟨d, hd, hyields.word.trans (by decide), hkeeps.x rfl, hkeeps.mem _ (by decide) nofun⟩

end Stack6502
