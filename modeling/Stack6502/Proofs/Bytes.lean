/-!
# Bytes and words

Words from bytes, and the shifts of the processor, with what each does to numbers. Facts about
words are proved on these numbers.
-/
namespace Stack6502

abbrev Byte := BitVec 8
abbrev Word := BitVec 16

namespace Word

def ofBytes (high low : Byte) : Word := high ++ low

def low (w : Word) : Byte := w.setWidth 8

def high (w : Word) : Byte := w.extractLsb' 8 8

theorem toNat_ofBytes (h l : Byte) : (ofBytes h l).toNat = 256 * h.toNat + l.toNat := by
  have hl := l.isLt
  rw [ofBytes, BitVec.toNat_append, ← Nat.shiftLeft_add_eq_or_of_lt hl, Nat.shiftLeft_eq]
  omega

theorem toNat_low (w : Word) : w.low.toNat = w.toNat % 256 := by
  simp [low]

theorem toNat_high (w : Word) : w.high.toNat = w.toNat / 256 := by
  have hw := w.isLt
  simp only [high, BitVec.extractLsb'_toNat, Nat.shiftRight_eq_div_pow]
  omega

@[simp] theorem low_ofBytes (h l : Byte) : (ofBytes h l).low = l := by
  apply BitVec.eq_of_toNat_eq
  rw [toNat_low, toNat_ofBytes]
  omega

@[simp] theorem high_ofBytes (h l : Byte) : (ofBytes h l).high = h := by
  apply BitVec.eq_of_toNat_eq
  rw [toNat_high, toNat_ofBytes]
  omega

@[simp] theorem ofBytes_high_low (w : Word) : ofBytes w.high w.low = w := by
  apply BitVec.eq_of_toNat_eq
  rw [toNat_ofBytes, toNat_high, toNat_low]
  omega

@[simp] theorem low_and (v w : Word) : (v &&& w).low = v.low &&& w.low := BitVec.setWidth_and

@[simp] theorem high_and (v w : Word) : (v &&& w).high = v.high &&& w.high :=
  BitVec.extractLsb'_and

@[simp] theorem low_or (v w : Word) : (v ||| w).low = v.low ||| w.low := BitVec.setWidth_or

@[simp] theorem high_or (v w : Word) : (v ||| w).high = v.high ||| w.high :=
  BitVec.extractLsb'_or

@[simp] theorem low_xor (v w : Word) : (v ^^^ w).low = v.low ^^^ w.low := BitVec.setWidth_xor

@[simp] theorem high_xor (v w : Word) : (v ^^^ w).high = v.high ^^^ w.high :=
  BitVec.extractLsb'_xor

end Word

/-- Shifts by one bit: the carry before and the byte give the carry after and the byte. -/
abbrev Shift := Bool → Byte → Bool × Byte

namespace Shift

def asl : Shift := fun _ v => (v.msb, v <<< 1)

def lsr : Shift := fun _ v => (v.getLsbD 0, v >>> 1)

def rol : Shift := fun carry v => (v.msb, v <<< 1 ||| (BitVec.ofBool carry).setWidth 8)

def ror : Shift := fun carry v => (v.getLsbD 0, v >>> 1 ||| if carry then 0x80 else 0)

theorem toNat_asl (c : Bool) (v : Byte) : (asl c v).2.toNat = 2 * v.toNat % 256 := by
  simp [asl, Nat.shiftLeft_eq]; omega

theorem toNat_lsr (c : Bool) (v : Byte) : (lsr c v).2.toNat = v.toNat / 2 := by
  simp [lsr, Nat.shiftRight_eq_div_pow]

theorem toNat_rol (c : Bool) (v : Byte) : (rol c v).2.toNat = 2 * v.toNat % 256 + c.toNat := by
  revert c v; decide +kernel

theorem toNat_ror (c : Bool) (v : Byte) : (ror c v).2.toNat = v.toNat / 2 + 128 * c.toNat := by
  revert c v; decide +kernel

theorem toNat_asl_carry (c : Bool) (v : Byte) : (asl c v).1.toNat = v.toNat / 128 := by
  revert c v; decide +kernel

theorem toNat_lsr_carry (c : Bool) (v : Byte) : (lsr c v).1.toNat = v.toNat % 2 := by
  revert c v; decide +kernel

theorem toNat_rol_carry (c : Bool) (v : Byte) : (rol c v).1.toNat = v.toNat / 128 := by
  revert c v; decide +kernel

theorem toNat_ror_carry (c : Bool) (v : Byte) : (ror c v).1.toNat = v.toNat % 2 := by
  revert c v; decide +kernel

end Shift

namespace Byte

def sum (carry : Bool) (a b : Byte) : Bool × Byte :=
  let s : BitVec 9 := a.setWidth 9 + b.setWidth 9 + (BitVec.ofBool carry).setWidth 9
  (s.msb, s.setWidth 8)

theorem toNat_sum (carry : Bool) (a b : Byte) :
    (sum carry a b).2.toNat = (a.toNat + b.toNat + carry.toNat) % 256 := by
  have ha := a.isLt
  have hb := b.isLt
  cases carry <;> simp [sum]

theorem toNat_sum_carry (carry : Bool) (a b : Byte) :
    (sum carry a b).1.toNat = (a.toNat + b.toNat + carry.toNat) / 256 := by
  have ha := a.isLt
  have hb := b.isLt
  have hmsb (s : BitVec 9) : s.msb.toNat = s.toNat / 256 := by
    revert s; decide +kernel
  cases carry <;> simp [sum, hmsb] <;> omega

theorem sum_false (a b : Byte) : (sum false a b).2 = a + b := by
  apply BitVec.eq_of_toNat_eq
  rw [toNat_sum, BitVec.toNat_add]
  rfl

theorem sum_true_not (a b : Byte) : (sum true a (~~~b)).2 = a - b := by
  have hb := b.isLt
  apply BitVec.eq_of_toNat_eq
  rw [toNat_sum, BitVec.toNat_sub, BitVec.toNat_not, Bool.toNat_true]
  omega

end Byte

namespace Word

theorem toNat_rotateLeft_one (w : Word) :
    (w.rotateLeft 1).toNat = 2 * w.toNat % 65536 + w.toNat / 32768 := by
  have hw := w.isLt
  have hlast : w.toNat >>> 15 < 2 ^ 1 := by
    rw [Nat.shiftRight_eq_div_pow]
    omega
  have hrest : w.toNat <<< 1 % 2 ^ 16 = (w.toNat % 32768) <<< 1 := by
    simp only [Nat.shiftLeft_eq]
    omega
  rw [BitVec.toNat_rotateLeft, hrest, ← Nat.shiftLeft_add_eq_or_of_lt hlast]
  simp only [Nat.shiftLeft_eq, Nat.shiftRight_eq_div_pow]
  omega

theorem toNat_rotateRight_one (w : Word) :
    (w.rotateRight 1).toNat = w.toNat / 2 + 32768 * (w.toNat % 2) := by
  have hw := w.isLt
  have hrest : w.toNat >>> 1 < 2 ^ 15 := by
    rw [Nat.shiftRight_eq_div_pow]
    omega
  have hfirst : w.toNat <<< 15 % 2 ^ 16 = (w.toNat % 2) <<< 15 := by
    simp only [Nat.shiftLeft_eq]
    omega
  rw [BitVec.toNat_rotateRight, hfirst, Nat.or_comm, ← Nat.shiftLeft_add_eq_or_of_lt hrest]
  simp only [Nat.shiftLeft_eq, Nat.shiftRight_eq_div_pow]
  omega

theorem low_ofInt (v : Int) : low (BitVec.ofInt 16 v) = BitVec.ofInt 8 v := by
  apply BitVec.eq_of_toNat_eq
  rw [toNat_low, BitVec.toNat_ofInt, BitVec.toNat_ofInt]
  omega

theorem low_or_high_eq_zero_iff {w : Word} : w.low ||| w.high = 0#8 ↔ w = 0#16 := by
  rw [BitVec.or_eq_zero_iff]
  constructor
  · rintro ⟨hlow, hhigh⟩
    rw [← ofBytes_high_low w, hlow, hhigh]
    rfl
  · rintro rfl
    exact ⟨rfl, rfl⟩

section

variable (c : Bool) (h l : Byte)

theorem ofBytes_shiftLeft :
    ofBytes (Shift.rol (Shift.asl c l).1 h).2 (Shift.asl c l).2 = ofBytes h l <<< 1 := by
  apply BitVec.eq_of_toNat_eq
  rw [toNat_ofBytes, Shift.toNat_rol, Shift.toNat_asl_carry, Shift.toNat_asl,
    BitVec.toNat_shiftLeft, toNat_ofBytes, Nat.shiftLeft_eq]
  omega

theorem ofBytes_shiftRight :
    ofBytes (Shift.lsr c h).2 (Shift.ror (Shift.lsr c h).1 l).2 = ofBytes h l >>> 1 := by
  apply BitVec.eq_of_toNat_eq
  rw [toNat_ofBytes, Shift.toNat_ror, Shift.toNat_lsr_carry, Shift.toNat_lsr,
    BitVec.toNat_ushiftRight, toNat_ofBytes, Nat.shiftRight_eq_div_pow]
  omega

theorem ofBytes_rotateLeftCarry :
    ofBytes (Shift.rol (Shift.rol c l).1 h).2 (Shift.rol c l).2 =
      ofBytes h l <<< 1 + (BitVec.ofBool c).setWidth 16 := by
  apply BitVec.eq_of_toNat_eq
  have hc := c.toNat_lt
  have hh := h.isLt
  have hl := l.isLt
  rw [toNat_ofBytes, Shift.toNat_rol, Shift.toNat_rol_carry, Shift.toNat_rol, BitVec.toNat_add,
    BitVec.toNat_shiftLeft, BitVec.toNat_setWidth, BitVec.toNat_ofBool, toNat_ofBytes,
    Nat.shiftLeft_eq]
  omega

theorem ofBytes_rotateRightCarry :
    ofBytes (Shift.ror c h).2 (Shift.ror (Shift.ror c h).1 l).2 =
      ofBytes h l >>> 1 + if c then 0x8000 else 0 := by
  apply BitVec.eq_of_toNat_eq
  have hl := l.isLt
  have hh := h.isLt
  simp only [toNat_ofBytes, Shift.toNat_ror, Shift.toNat_ror_carry, BitVec.toNat_add,
    BitVec.toNat_ushiftRight, Nat.shiftRight_eq_div_pow]
  cases c <;> simp <;> omega

theorem ofBytes_rotateLeft :
    ofBytes (Shift.rol (Shift.asl c l).1 h).2
      (if (Shift.rol (Shift.asl c l).1 h).1 then (Shift.asl c l).2 + 1#8 else (Shift.asl c l).2) =
        (ofBytes h l).rotateLeft 1 := by
  have hcarry := Shift.toNat_rol_carry (Shift.asl c l).1 h
  have hh := h.isLt
  have hl := l.isLt
  apply BitVec.eq_of_toNat_eq
  rw [toNat_ofBytes, Shift.toNat_rol, Shift.toNat_asl_carry, toNat_rotateLeft_one, toNat_ofBytes]
  cases hb : (Shift.rol (Shift.asl c l).1 h).1 with
  | false =>
    rw [hb, Bool.toNat_false] at hcarry
    rw [if_neg Bool.false_ne_true, Shift.toNat_asl]
    omega
  | true =>
    rw [hb, Bool.toNat_true] at hcarry
    rw [if_pos rfl, BitVec.toNat_add, Shift.toNat_asl, show (1#8).toNat = 1 from rfl]
    omega

theorem ofBytes_rotateRight :
    ofBytes (if (Shift.ror (Shift.lsr c h).1 l).1 then (Shift.lsr c h).2 ||| 0x80#8
        else (Shift.lsr c h).2) (Shift.ror (Shift.lsr c h).1 l).2 =
      (ofBytes h l).rotateRight 1 := by
  have hor (c : Bool) (v : Byte) : ((Shift.lsr c v).2 ||| 0x80#8).toNat = v.toNat / 2 + 128 := by
    revert c v; decide +kernel
  have hcarry := Shift.toNat_ror_carry (Shift.lsr c h).1 l
  apply BitVec.eq_of_toNat_eq
  rw [toNat_ofBytes, Shift.toNat_ror, Shift.toNat_lsr_carry, toNat_rotateRight_one, toNat_ofBytes]
  cases hb : (Shift.ror (Shift.lsr c h).1 l).1 with
  | false =>
    rw [hb, Bool.toNat_false] at hcarry
    rw [if_neg Bool.false_ne_true, Shift.toNat_lsr]
    omega
  | true =>
    rw [hb, Bool.toNat_true] at hcarry
    rw [if_pos rfl, hor]
    omega

theorem ofBytes_succ :
    ofBytes (if l + 1#8 = 0#8 then h + 1#8 else h) (l + 1#8) = ofBytes h l + 1#16 := by
  have hh := h.isLt
  have hl := l.isLt
  apply BitVec.eq_of_toNat_eq
  have hzero : l + 1#8 = 0#8 ↔ l.toNat = 255 := by
    rw [← BitVec.toNat_inj]
    simp; omega
  by_cases hz : l.toNat = 255
  · rw [if_pos (hzero.mpr hz)]
    simp [toNat_ofBytes]; omega
  · rw [if_neg (mt hzero.mp hz)]
    simp [toNat_ofBytes]; omega

theorem ofBytes_pred :
    ofBytes (if l = 0#8 then h - 1#8 else h) (l - 1#8) = ofBytes h l - 1#16 := by
  have hh := h.isLt
  have hl := l.isLt
  apply BitVec.eq_of_toNat_eq
  have hzero : l = 0#8 ↔ l.toNat = 0 := by
    rw [← BitVec.toNat_inj]
    rfl
  by_cases hz : l.toNat = 0
  · rw [if_pos (hzero.mpr hz)]
    simp [toNat_ofBytes]; omega
  · rw [if_neg (mt hzero.mp hz)]
    simp [toNat_ofBytes]; omega

theorem ofBytes_zeroExtend (v : Byte) : ofBytes 0#8 v = v.setWidth 16 := by
  apply BitVec.eq_of_toNat_eq
  rw [toNat_ofBytes]
  simp; omega

theorem ofBytes_signExtend (v : Byte) :
    ofBytes (if v.msb then 0xff#8 else 0#8) v = v.signExtend 16 := by
  revert v; decide +kernel

theorem ofBytes_byteUp : ofBytes l 0#8 = ofBytes h l <<< 8 := by
  apply BitVec.eq_of_toNat_eq
  rw [toNat_ofBytes, BitVec.toNat_shiftLeft, toNat_ofBytes, Nat.shiftLeft_eq]
  simp; omega

theorem ofBytes_byteDown : ofBytes 0#8 h = ofBytes h l >>> 8 := by
  apply BitVec.eq_of_toNat_eq
  rw [toNat_ofBytes, BitVec.toNat_ushiftRight, toNat_ofBytes, Nat.shiftRight_eq_div_pow]
  simp; omega

theorem ofBytes_not : ofBytes (~~~h) (~~~l) = ~~~ofBytes h l := by
  apply BitVec.eq_of_toNat_eq
  have hl := l.isLt
  have hh := h.isLt
  simp only [toNat_ofBytes, BitVec.toNat_not]
  omega

theorem ofBytes_neg :
    ofBytes (Byte.sum (Byte.sum true 0#8 (~~~l)).1 0#8 (~~~h)).2 (Byte.sum true 0#8 (~~~l)).2 =
      -ofBytes h l := by
  apply BitVec.eq_of_toNat_eq
  have hl := l.isLt
  have hh := h.isLt
  simp only [toNat_ofBytes, Byte.toNat_sum, Byte.toNat_sum_carry, BitVec.toNat_neg,
    BitVec.toNat_not, BitVec.toNat_ofNat, Bool.toNat_true]
  omega

end

end Word

end Stack6502
