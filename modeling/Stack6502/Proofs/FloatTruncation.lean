import Mathlib.Data.Rat.Floor
import Mathlib.Data.Sign.Basic
import Stack6502.Number.FiveByte
import Stack6502.Proofs.NearestDouble

/-!
# Five-byte floats cut off

The format keeps the leading 32 bits of a number and cuts off the rest. The bits can be had by
halving or doubling the number until it has 32 of them before the point. That takes up to a thousand
turns, none of which loses a bit, and the exponent counts them. What is decoded has no more than
these bits, so that encoding it gives its bytes back.
-/
namespace Stack6502

namespace Double

/-! ### Exact values -/

/-- The number that a finite double stands for. -/
def value (x : Double) : ℚ := (if x.isNegative then -1 else 1) * (x.mantissa * 2 ^ x.exponent)

theorem abs_value (x : Double) : |x.value| = x.mantissa * 2 ^ x.exponent := by
  have hnonneg : (0 : ℚ) ≤ x.mantissa * 2 ^ x.exponent := by positivity
  unfold value
  split
  · rw [neg_one_mul, abs_neg, abs_of_nonneg hnonneg]
  · rw [one_mul, abs_of_nonneg hnonneg]

theorem value_of_not_isNegative {x : Double} (h : x.isNegative = false) :
    x.value = x.mantissa * 2 ^ x.exponent := by
  rw [value, h, if_neg Bool.false_ne_true, one_mul]

theorem ofFields_eq (negative : Bool) (field fraction : ℕ) :
    ofFields negative field fraction = ofFields negative 0 (field * 2 ^ 52 + fraction) := by
  rw [ofFields, ofFields, Nat.zero_mul, Nat.add_zero, Nat.add_assoc, Nat.pow_eq, Nat.pow_eq]

/-- A number of units with 53 bits, or with fewer if the unit is the smallest. -/
theorem parts_ofFields (negative : Bool) {unit : ℤ} {k : ℕ} (hmin : -1074 ≤ unit)
    (hmax : unit ≤ 971) (hk : k < 2 ^ 53) (hnormal : unit = -1074 ∨ 2 ^ 52 ≤ k) :
    (ofFields negative 0 ((unit + 1074).toNat * 2 ^ 52 + k)).isFinite ∧
      (ofFields negative 0 ((unit + 1074).toNat * 2 ^ 52 + k)).isNegative = negative ∧
      (ofFields negative 0 ((unit + 1074).toNat * 2 ^ 52 + k)).mantissa = k ∧
      (ofFields negative 0 ((unit + 1074).toNat * 2 ^ 52 + k)).exponent = unit := by
  obtain ⟨n, hn⟩ := Int.eq_ofNat_of_zero_le (show 0 ≤ unit + 1074 by omega)
  rw [hn, Int.toNat_natCast]
  obtain ⟨hsign, hfield, hfraction⟩ :=
    fields_ofFields negative (show n * 2 ^ 52 + k < 2 ^ 63 by omega)
  refine ⟨?_, hsign, ?_, ?_⟩
  · rw [isFinite, hfield, bne_iff_ne]
    omega
  · simp only [mantissa, hfield, hfraction, Nat.pow_eq]
    split_ifs <;> omega
  · simp only [exponent, hfield]
    split_ifs <;> omega

theorem parts_abs (x : Double) : x.abs.isNegative = false ∧ x.abs.isFinite = x.isFinite ∧
    x.abs.mantissa = x.mantissa ∧ x.abs.exponent = x.exponent := by
  have hfraction := x.fraction_lt
  have hfield : x.exponentField < 2 ^ 11 := Nat.mod_lt _ (by decide)
  obtain ⟨hsign, hfield', hfraction'⟩ :=
    fields_ofFields false (show x.exponentField * 2 ^ 52 + x.fraction < 2 ^ 63 by omega)
  rw [← ofFields_eq, ← abs] at hsign hfield' hfraction'
  rw [show (x.exponentField * 2 ^ 52 + x.fraction) / 2 ^ 52 = x.exponentField by omega] at hfield'
  rw [show (x.exponentField * 2 ^ 52 + x.fraction) % 2 ^ 52 = x.fraction by omega] at hfraction'
  simp only [isFinite, mantissa, exponent, hsign, hfield', hfraction', and_self]

theorem value_abs (x : Double) : x.abs.value = |x.value| := by
  obtain ⟨hsign, -, hmantissa, hexponent⟩ := x.parts_abs
  rw [value_of_not_isNegative hsign, hmantissa, hexponent, abs_value]

/-- A ratio that has 53 bits in some unit is not rounded: counted in its own unit, which is no
larger, it is whole still. -/
theorem ofRatio_of_eq_mul (negative : Bool) {num den k : ℕ} {e : ℤ} (hnum : 0 < num)
    (hden : 0 < den) (hk : k < 2 ^ 53) (hmin : -1074 ≤ e) (hmax : e ≤ 971)
    (h : (num / den : ℚ) = k * 2 ^ e) :
    ∃ (unit : ℤ) (n : ℕ), -1074 ≤ unit ∧ unit ≤ 971 ∧ n < 2 ^ 53 ∧ (unit = -1074 ∨ 2 ^ 52 ≤ n) ∧
      (n * 2 ^ unit : ℚ) = num / den ∧
      ofRatio negative num den = ofFields negative 0 ((unit + 1074).toNat * 2 ^ 52 + n) := by
  obtain ⟨unit, hunit⟩ : ∃ unit, unitOf num den = unit := ⟨_, rfl⟩
  obtain ⟨hleast, hhigh, hlow⟩ := unitOf_spec hnum hden
  rw [hunit] at hleast hhigh hlow
  have hle : unit ≤ e := by
    refine unit_le_of_ratio hmin ?_ hlow
    rw [h]
    gcongr
    exact_mod_cast hk
  obtain ⟨i, rfl⟩ : ∃ i : ℕ, e = i + unit := ⟨(e - unit).toNat, by omega⟩
  have hcount : (num / den : ℚ) = (k * 2 ^ i : ℕ) * 2 ^ unit := by
    rw [h, zpow_add₀ two_ne_zero, zpow_natCast]
    push_cast
    ring
  have hpos : (0 : ℚ) < 2 ^ unit := by positivity
  have hlt : k * 2 ^ i < 2 ^ 53 := by
    rw [hcount] at hhigh
    exact_mod_cast lt_of_mul_lt_mul_right hhigh hpos.le
  have hnormal : unit = -1074 ∨ 2 ^ 52 ≤ k * 2 ^ i := by
    refine hlow.imp_right fun hlow => ?_
    rw [hcount] at hlow
    exact_mod_cast le_of_mul_le_mul_right hlow hpos
  refine ⟨unit, k * 2 ^ i, hleast, hle.trans hmax, hlt, hnormal, hcount.symm, ?_⟩
  have hnear : IsNear (num / den / 2 ^ unitOf num den) (k * 2 ^ i) := by
    rw [hunit, hcount, mul_div_cancel_right₀ _ hpos.ne']
    constructor <;> intros <;> linarith
  rw [ofRatio_of_isNear _ hnum hden hnear, hunit, if_neg (by omega)]

structure Denotes (x : Double) (q : ℚ) : Prop where
  isFinite : x.isFinite
  not_isNegative : x.isNegative = false
  value : x.value = q

theorem Denotes.eq_mul {x : Double} {q : ℚ} (h : x.Denotes q) :
    q = x.mantissa * 2 ^ x.exponent := by
  rw [← h.value, value_of_not_isNegative h.not_isNegative]

theorem denotes_abs {x : Double} (h : x.isFinite) : x.abs.Denotes |x.value| :=
  ⟨x.parts_abs.2.1.trans h, x.parts_abs.1, x.value_abs⟩

def ofRat (q : ℚ) : Double := ofRatio (q < 0) q.num.natAbs q.den

theorem denotes_ofRat {q : ℚ} {k : ℕ} {e : ℤ} (hpos : 0 < q) (hk : k < 2 ^ 53)
    (hmin : -1074 ≤ e) (hmax : e ≤ 971) (h : q = k * 2 ^ e) : (ofRat q).Denotes q := by
  have hnum := Rat.num_pos.mpr hpos
  have hratio : (q.num.natAbs / q.den : ℚ) = q := by
    rw [Nat.cast_natAbs, abs_of_pos hnum, Rat.num_div_den]
  obtain ⟨unit, n, hleast, hlarge, hn, hnormal, hcount, hround⟩ := ofRatio_of_eq_mul false
    (Int.natAbs_pos.mpr hnum.ne') q.den_pos hk hmin hmax (hratio.trans h)
  obtain ⟨hfinite, hsign, hmantissa, hexponent⟩ := parts_ofFields false hleast hlarge hn hnormal
  rw [← hround] at hfinite hsign hmantissa hexponent
  rw [ofRat, decide_eq_false hpos.le.not_gt]
  refine ⟨hfinite, hsign, ?_⟩
  rw [value_of_not_isNegative hsign, hmantissa, hexponent, hcount, hratio]

/-! ### The scale of a number -/

/-- The power of two that leaves 32 bits of a number before the point. -/
def IsScale (q : ℚ) (e : ℤ) : Prop := 2 ^ 31 ≤ |q| / 2 ^ e ∧ |q| / 2 ^ e < 2 ^ 32

theorem IsScale.bounds {q : ℚ} {e : ℤ} (h : IsScale q e) :
    (2 : ℚ) ^ (e + 31) ≤ |q| ∧ |q| < 2 ^ (e + 32) := by
  have hpos : (0 : ℚ) < 2 ^ e := by positivity
  obtain ⟨hlow, hhigh⟩ := h
  rw [le_div_iff₀ hpos] at hlow
  rw [div_lt_iff₀ hpos] at hhigh
  rw [zpow_add₀ two_ne_zero, zpow_add₀ two_ne_zero]
  constructor
  · linarith
  · linarith

theorem IsScale.abs_lt_iff {q : ℚ} {e : ℤ} (h : IsScale q e) (n : ℤ) :
    |q| < 2 ^ n ↔ e + 32 ≤ n := by
  obtain ⟨hlow, hhigh⟩ := h.bounds
  constructor
  · intro hlt
    have := (zpow_lt_zpow_iff_right₀ one_lt_two).mp (hlow.trans_lt hlt)
    omega
  · intro hle
    exact hhigh.trans_le (zpow_le_zpow_right₀ one_le_two hle)

theorem IsScale.unique {q : ℚ} {d e : ℤ} (hd : IsScale q d) (he : IsScale q e) : d = e := by
  have hle := (hd.abs_lt_iff _).mp he.bounds.2
  have hge := (he.abs_lt_iff _).mp hd.bounds.2
  omega

def scale (x : Double) : ℤ := x.exponent + x.mantissa.log2 - 31

theorem abs_value_div_scale (x : Double) : |x.value| / 2 ^ x.scale =
    (x.mantissa * 2 ^ (31 - x.mantissa.log2) : ℕ) / (2 ^ (x.mantissa.log2 - 31) : ℕ) := by
  have hshift : (2 : ℚ) ^ x.exponent / 2 ^ x.scale = 2 ^ (31 - x.mantissa.log2 : ℤ) := by
    rw [← zpow_sub₀ two_ne_zero]
    congr 1
    unfold scale
    omega
  have hup : (31 - x.mantissa.log2 : ℤ).toNat = 31 - x.mantissa.log2 := by omega
  have hdown : (-(31 - x.mantissa.log2 : ℤ)).toNat = x.mantissa.log2 - 31 := by omega
  rw [abs_value, mul_div_assoc, hshift, zpow_eq_div, hup, hdown]
  push_cast
  rw [mul_div_assoc]

theorem isScale_scale {x : Double} (hzero : x.isZero = false) : IsScale x.value x.scale := by
  have hpos : (0 : ℚ) < (2 ^ (x.mantissa.log2 - 31) : ℕ) := by positivity
  have hlow := Nat.log2_self_le (mantissa_pos hzero).ne'
  have hhigh := Nat.lt_log2_self (n := x.mantissa)
  have hsplit : 2 ^ x.mantissa.log2 * 2 ^ (31 - x.mantissa.log2) =
      2 ^ 31 * 2 ^ (x.mantissa.log2 - 31) := by
    rw [← Nat.pow_add, ← Nat.pow_add]
    congr 1
    omega
  have hup : 0 < 2 ^ (31 - x.mantissa.log2) := by positivity
  rw [IsScale, abs_value_div_scale, le_div_iff₀ hpos, div_lt_iff₀ hpos]
  constructor
  · exact_mod_cast hsplit ▸ Nat.mul_le_mul_right _ hlow
  · have hlt := Nat.mul_lt_mul_of_pos_right hhigh hup
    rw [Nat.pow_succ, Nat.mul_right_comm, hsplit] at hlt
    have hlt' : x.mantissa * 2 ^ (31 - x.mantissa.log2) < 2 ^ 32 * 2 ^ (x.mantissa.log2 - 31) := by
      omega
    exact_mod_cast hlt'

end Double

namespace FiveByte

open Double

theorem top32_mantissa (x : Double) : top32 x.mantissa = ⌊|x.value| / 2 ^ x.scale⌋₊ := by
  rw [abs_value_div_scale, Rat.natFloor_natCast_div_natCast]
  rfl

/-- What becomes of a number once it is scaled. -/
def outcome (x : Double) (exponent : ℤ) (scaled : ℚ) : Except Overflow FiveByte :=
  if exponent ≤ 0 then .ok zero
  else if 255 < exponent then .error ⟨x.abs⟩
  else .ok (pack x.isNegative exponent.toNat ⌊scaled⌋₊)

theorem encode_eq_outcome {x : Double} (hfinite : x.isFinite) (hzero : x.isZero = false) :
    encode x = outcome x (x.scale + 160) (|x.value| / 2 ^ x.scale) := by
  have hexponent : x.exponent + x.mantissa.log2 + 129 = x.scale + 160 := by
    unfold scale
    omega
  rw [encode, hfinite, hzero, outcome, ← top32_mantissa, ← hexponent]
  rfl

end FiveByte

/-! ### Scaling turn by turn -/

namespace Double

def half (x : Double) : Double := ofRat (x.value / 2)

def twice (x : Double) : Double := ofRat (x.value * 2)

variable {x : Double} {q : ℚ}

theorem Denotes.mantissa_pos (h : x.Denotes q) (hq : 0 < q) : 0 < x.mantissa := by
  refine Nat.pos_of_ne_zero fun hzero => hq.ne' ?_
  rw [h.eq_mul, hzero, Nat.cast_zero, zero_mul]

/-- Nothing is lost by halving a number that is not small. -/
theorem Denotes.half (h : x.Denotes q) (hlarge : 2 ^ 32 ≤ q) : x.half.Denotes (q / 2) := by
  have hmantissa : (x.mantissa : ℚ) < 2 ^ 53 := by exact_mod_cast x.mantissa_lt
  have hexponent : (2 : ℚ) ^ (0 : ℤ) < 2 ^ (21 + x.exponent) := by
    have hpos : (0 : ℚ) < 2 ^ x.exponent := by positivity
    rw [h.eq_mul] at hlarge
    rw [zpow_add₀ two_ne_zero, zpow_zero]
    nlinarith
  have hmin := (zpow_lt_zpow_iff_right₀ one_lt_two).mp hexponent
  have hhalf : q / 2 = x.mantissa * 2 ^ (x.exponent - 1) := by
    rw [h.eq_mul, zpow_sub_one₀ two_ne_zero]
    ring
  have hmax := exponent_le h.isFinite
  rw [Double.half, h.value]
  exact denotes_ofRat (by linarith) x.mantissa_lt (by omega) (by omega) hhalf

/-- Nothing is lost by doubling a number that is not large. -/
theorem Denotes.twice (h : x.Denotes q) (hpos : 0 < q) (hsmall : q < 2 ^ 31) :
    x.twice.Denotes (q * 2) := by
  have hone : (1 : ℚ) ≤ x.mantissa := by exact_mod_cast h.mantissa_pos hpos
  have hexponent : (2 : ℚ) ^ x.exponent < 2 ^ (31 : ℤ) := by
    have hpos : (0 : ℚ) < 2 ^ x.exponent := by positivity
    rw [h.eq_mul] at hsmall
    exact (le_mul_of_one_le_left hpos.le hone).trans_lt hsmall
  have hmax := (zpow_lt_zpow_iff_right₀ one_lt_two).mp hexponent
  have htwice : q * 2 = x.mantissa * 2 ^ (x.exponent + 1) := by
    rw [h.eq_mul, zpow_add_one₀ two_ne_zero]
    ring
  have hmin := x.le_exponent
  rw [Double.twice, h.value]
  exact denotes_ofRat (by linarith) x.mantissa_lt (by omega) (by omega) htwice

end Double

structure Scaling where
  number : Double
  exponent : ℤ

namespace Scaling

/-- A turn of the loop that makes the number small enough. -/
def shrink? (s : Scaling) : Option Scaling :=
  if 2 ^ 32 ≤ s.number.value then some ⟨s.number.half, s.exponent + 1⟩ else none

/-- A turn of the loop that makes the number large enough. -/
def grow? (s : Scaling) : Option Scaling :=
  if s.number.value < 2 ^ 31 then some ⟨s.number.twice, s.exponent - 1⟩ else none

inductive EndsAfter (turn : Scaling → Option Scaling) : ℕ → Scaling → Scaling → Prop
  | done {s : Scaling} : turn s = none → EndsAfter turn 0 s s
  | next {n : ℕ} {s t u : Scaling} :
    turn s = some t → EndsAfter turn n t u → EndsAfter turn (n + 1) s u

theorem endsAfter_shrink {n : ℕ} {s : Scaling} {q : ℚ} (hs : s.number.Denotes q)
    (hhigh : q < 2 ^ 32 * 2 ^ n) (hlow : n = 0 ∨ 2 ^ 31 * 2 ^ n ≤ q) :
    ∃ t, EndsAfter shrink? n s t ∧ t.number.Denotes (q / 2 ^ n) ∧ t.exponent = s.exponent + n := by
  induction n generalizing s q with
  | zero =>
    refine ⟨s, .done (if_neg ?_), by simpa using hs, by simp⟩
    rw [hs.value, not_le]
    linarith
  | succ n ih =>
    have hlow := hlow.resolve_left n.succ_ne_zero
    rw [pow_succ _ n] at hlow hhigh
    have hone : (1 : ℚ) ≤ 2 ^ n := one_le_pow₀ one_le_two
    have hlarge : 2 ^ 32 ≤ q := by linarith
    obtain ⟨t, ht, hnumber, hexponent⟩ :=
      ih (s := ⟨s.number.half, s.exponent + 1⟩) (hs.half hlarge) (by linarith)
        (.inr (by linarith))
    refine ⟨t, .next (if_pos (by rwa [hs.value])) ht, ?_, ?_⟩
    · rwa [pow_succ', ← div_div]
    · rw [hexponent]
      push_cast
      ring

theorem endsAfter_grow {n : ℕ} {s : Scaling} {q : ℚ} (hs : s.number.Denotes q)
    (hlow : 2 ^ 31 ≤ q * 2 ^ n) (hhigh : n = 0 ∨ q * 2 ^ n < 2 ^ 32) :
    ∃ t, EndsAfter grow? n s t ∧ t.number.Denotes (q * 2 ^ n) ∧ t.exponent = s.exponent - n := by
  induction n generalizing s q with
  | zero =>
    refine ⟨s, .done (if_neg ?_), by simpa using hs, by simp⟩
    rw [hs.value, not_lt]
    linarith
  | succ n ih =>
    have hhigh := hhigh.resolve_left n.succ_ne_zero
    rw [pow_succ' _ n, ← mul_assoc] at hlow hhigh
    have hone : (1 : ℚ) ≤ 2 ^ n := one_le_pow₀ one_le_two
    have hpos : 0 < q := by
      by_contra! hneg
      nlinarith
    have hsmall : q < 2 ^ 31 := by nlinarith
    obtain ⟨t, ht, hnumber, hexponent⟩ :=
      ih (s := ⟨s.number.twice, s.exponent - 1⟩) (hs.twice hpos hsmall) hlow (.inr hhigh)
    refine ⟨t, .next (if_pos (by rwa [hs.value])) ht, ?_, ?_⟩
    · rwa [pow_succ', ← mul_assoc]
    · rw [hexponent]
      push_cast
      ring

/-- Both loops end for every number other than zero. One of them takes no turn. -/
theorem exists_endsAfter {x : Double} (hfinite : x.isFinite) (hzero : x.isZero = false) :
    ∃ s t, EndsAfter shrink? x.scale.toNat ⟨x.abs, 160⟩ s ∧
      EndsAfter grow? (-x.scale).toNat s t ∧
      t.exponent = x.scale + 160 ∧ t.number.value = |x.value| / 2 ^ x.scale := by
  obtain ⟨hlow, hhigh⟩ := Double.isScale_scale hzero
  have hsplit : |x.value| / 2 ^ x.scale =
      |x.value| / 2 ^ x.scale.toNat * 2 ^ (-x.scale).toNat := by
    rw [zpow_eq_div]
    field_simp
  rw [hsplit] at hlow hhigh
  have hpos : (0 : ℚ) < 2 ^ x.scale.toNat := by positivity
  have hshrunk : |x.value| / 2 ^ x.scale.toNat < 2 ^ 32 :=
    (le_mul_of_one_le_right (by positivity) (one_le_pow₀ one_le_two)).trans_lt hhigh
  obtain ⟨s, hs, hnumber, hexponent⟩ := endsAfter_shrink (s := ⟨x.abs, 160⟩)
    (Double.denotes_abs hfinite) ((div_lt_iff₀ hpos).mp hshrunk)
    (or_iff_not_imp_left.mpr fun hne => by
      rwa [show (-x.scale).toNat = 0 by omega, pow_zero, mul_one, le_div_iff₀ hpos] at hlow)
  obtain ⟨t, ht, hnumber', hexponent'⟩ := endsAfter_grow hnumber hlow (.inr hhigh)
  refine ⟨s, t, hs, ht, ?_, hnumber'.value.trans hsplit.symm⟩
  rw [hexponent', hexponent]
  dsimp only
  omega

end Scaling

namespace FiveByte

open Double

/-! ### Packing and decoding -/

theorem parts_pack (negative : Bool) {e m : ℕ} (he : e < 256) (hlow : 2 ^ 31 ≤ m)
    (hhigh : m < 2 ^ 32) : (pack negative e m).exponent.toNat = e ∧
      (pack negative e m).isNegative = negative ∧ 2 ^ 31 + (pack negative e m).fraction = m := by
  refine ⟨UInt8.toNat_ofNat_of_lt' he, ?_, ?_⟩
  · cases negative <;> simp [isNegative, pack] <;> omega
  · cases negative <;> simp [fraction, pack] <;> omega

theorem fraction_lt (b : FiveByte) : b.fraction < 2 ^ 31 := by
  have h1 : b.m1.toNat % 0x80 < 0x80 := Nat.mod_lt _ (by decide)
  have h2 := b.m2.toNat_lt
  have h3 := b.m3.toNat_lt
  have h4 := b.m4.toNat_lt
  unfold fraction
  omega

theorem exponent_toNat_pos {b : FiveByte} (h : b.exponent ≠ 0) : 0 < b.exponent.toNat := by
  rw [Nat.pos_iff_ne_zero, ne_eq, ← UInt8.toNat_zero, UInt8.toNat_inj]
  exact h

theorem parts_decode {b : FiveByte} (h : b.exponent ≠ 0) : (decode b).isFinite ∧
    (decode b).isNegative = b.isNegative ∧ (decode b).mantissa = 2 ^ 52 + b.fraction * 2 ^ 21 ∧
    (decode b).exponent = b.exponent.toNat - 181 := by
  have hfraction := b.fraction_lt
  have hmin := exponent_toNat_pos h
  have hmax := b.exponent.toNat_lt
  have hbits : (b.exponent.toNat + 894) * 2 ^ 52 + b.fraction * 0x200000 =
      ((b.exponent.toNat - 181 : ℤ) + 1074).toNat * 2 ^ 52 + (2 ^ 52 + b.fraction * 2 ^ 21) := by
    omega
  rw [decode, if_neg h, ofFields_eq, hbits]
  exact parts_ofFields b.isNegative (by omega) (by omega) (by omega) (.inr (by omega))

/-- The number that five bytes stand for, other than zero. -/
theorem value_decode {b : FiveByte} (h : b.exponent ≠ 0) : (decode b).isFinite ∧
    (decode b).value = (if b.isNegative then -1 else 1) *
      ((2 ^ 31 + b.fraction : ℕ) * 2 ^ (b.exponent.toNat - 160 : ℤ)) := by
  obtain ⟨hfinite, hsign, hmantissa, hexponent⟩ := parts_decode h
  refine ⟨hfinite, ?_⟩
  have hpow : (2 : ℚ) ^ (b.exponent.toNat - 160 : ℤ) =
      2 ^ 21 * 2 ^ (b.exponent.toNat - 181 : ℤ) := by
    rw [← zpow_natCast, ← zpow_add₀ two_ne_zero]
    congr 1
    push_cast
    ring
  rw [value, hsign, hmantissa, hexponent, hpow]
  push_cast
  ring

/-! ### Range and value -/

section Encode

variable {x : Double}

theorem sign_value (hzero : x.isZero = false) :
    (SignType.sign x.value : ℚ) = if x.isNegative then -1 else 1 := by
  have hpos : (0 : ℚ) < x.mantissa * 2 ^ x.exponent := by
    have := mantissa_pos hzero
    positivity
  unfold value
  split
  · rw [neg_one_mul, sign_neg (neg_neg_of_pos hpos)]
    rfl
  · rw [one_mul, sign_pos hpos]
    rfl

theorem value_of_isZero (h : x.isZero) : x.value = 0 := by
  have hfields : x.exponentField = 0 ∧ x.fraction = 0 := by simpa [isZero] using h
  rw [value, mantissa, if_pos hfields.1, hfields.2, Nat.cast_zero, zero_mul, mul_zero]

theorem encode_of_not_isFinite (h : x.isFinite = false) : encode x = .error ⟨x⟩ := by
  rw [encode, h]
  rfl

/-- Where a number ends up. -/
theorem encode_cases (hfinite : x.isFinite) :
    |x.value| < 2 ^ (-128 : ℤ) ∧ encode x = .ok zero ∨
    2 ^ (127 : ℤ) ≤ |x.value| ∧ encode x = .error ⟨x.abs⟩ ∨
    (2 ^ (-128 : ℤ) ≤ |x.value| ∧ |x.value| < 2 ^ (127 : ℤ)) ∧ x.isZero = false ∧
      ∃ b, encode x = .ok b ∧ b.exponent ≠ 0 ∧ b.exponent.toNat = x.scale + 160 ∧
        b.isNegative = x.isNegative ∧ 2 ^ 31 + b.fraction = ⌊|x.value| / 2 ^ x.scale⌋₊ := by
  cases hzero : x.isZero with
  | true =>
    left
    rw [value_of_isZero hzero, abs_zero, encode, hfinite, hzero]
    exact ⟨by positivity, rfl⟩
  | false =>
    have hscale := isScale_scale hzero
    rw [encode_eq_outcome hfinite hzero, ← not_lt, ← not_lt, hscale.abs_lt_iff,
      hscale.abs_lt_iff, outcome]
    split_ifs with hsmall hlarge
    · exact .inl ⟨by omega, rfl⟩
    · exact .inr (.inl ⟨by omega, rfl⟩)
    · have hlow : 2 ^ 31 ≤ ⌊|x.value| / 2 ^ x.scale⌋₊ := Nat.le_floor (by exact_mod_cast hscale.1)
      have hhigh : ⌊|x.value| / 2 ^ x.scale⌋₊ < 2 ^ 32 :=
        (Nat.floor_lt (by positivity)).mpr (by exact_mod_cast hscale.2)
      obtain ⟨hexponent, hsign, hfraction⟩ := parts_pack x.isNegative
        (e := (x.scale + 160).toNat) (by omega) hlow hhigh
      refine .inr (.inr ⟨by omega, rfl, _, rfl, fun h => ?_, by omega, hsign, hfraction⟩)
      rw [h, UInt8.toNat_zero] at hexponent
      omega

theorem encode_eq_error_iff (x : Double) :
    (∃ o, encode x = .error o) ↔ x.isNaN ∨ x.isInfinite ∨ 2 ^ (127 : ℤ) ≤ |x.value| := by
  cases hfinite : x.isFinite with
  | false =>
    rw [encode_of_not_isFinite hfinite]
    refine iff_of_true ⟨_, rfl⟩ ?_
    cases hnan : x.isNaN with
    | false => exact .inr (.inl (isInfinite_of_isNaN hfinite hnan))
    | true => exact .inl rfl
  | true =>
    obtain ⟨hnan, hinfinite⟩ := isNaN_of_isFinite hfinite
    simp only [hnan, hinfinite, Bool.false_eq_true, false_or]
    obtain ⟨hsmall, hx⟩ | ⟨hlarge, hx⟩ | ⟨⟨-, hhigh⟩, -, b, hx, -⟩ := encode_cases hfinite
    · have hlt : |x.value| < 2 ^ (127 : ℤ) := hsmall.trans (by norm_num)
      rw [hx]
      exact iff_of_false (by simp) hlt.not_ge
    · rw [hx]
      exact iff_of_true ⟨_, rfl⟩ hlarge
    · rw [hx]
      exact iff_of_false (by simp) hhigh.not_ge

theorem encode_eq_zero_iff (x : Double) :
    encode x = .ok zero ↔ x.isFinite ∧ |x.value| < 2 ^ (-128 : ℤ) := by
  cases hfinite : x.isFinite with
  | false =>
    rw [encode_of_not_isFinite hfinite]
    simp
  | true =>
    rw [eq_self_iff_true, true_and]
    obtain ⟨hsmall, hx⟩ | ⟨hlarge, hx⟩ | ⟨⟨hlow, -⟩, -, b, hx, hexponent, -⟩ :=
      encode_cases hfinite
    · exact iff_of_true hx hsmall
    · have hle : 2 ^ (-128 : ℤ) ≤ |x.value| := le_trans (by norm_num) hlarge
      rw [hx]
      exact iff_of_false (by simp) hle.not_gt
    · rw [hx]
      refine iff_of_false (fun h => hexponent ?_) hlow.not_gt
      rw [Except.ok.inj h]
      rfl

/-- A number in range is cut off at its scale. -/
theorem value_decode_encode (hfinite : x.isFinite) (hlow : 2 ^ (-128 : ℤ) ≤ |x.value|)
    (hhigh : |x.value| < 2 ^ (127 : ℤ)) : x.isZero = false ∧ ∃ b, encode x = .ok b ∧
      (decode b).isFinite ∧ (decode b).value =
        SignType.sign x.value * ⌊|x.value| / 2 ^ x.scale⌋ * 2 ^ x.scale := by
  obtain ⟨hsmall, -⟩ | ⟨hlarge, -⟩ | ⟨-, hzero, b, hb, hne, hexponent, hsign, hfraction⟩ :=
    encode_cases hfinite
  · exact absurd hsmall hlow.not_gt
  · exact absurd hlarge hhigh.not_ge
  · obtain ⟨hdecode, hvalue⟩ := value_decode hne
    refine ⟨hzero, b, hb, hdecode, ?_⟩
    rw [hvalue, hsign, hfraction, sign_value hzero, hexponent, add_sub_cancel_right, mul_assoc,
      ← Int.natCast_floor_eq_floor (by positivity), Int.cast_natCast]

end Encode

/-- A number is refused from `2 ^ 127` on and becomes zero below `2 ^ (-128)`. Between these it
loses what lies below its leading 32 bits, and those are the bits that the loops leave before the
point. -/
theorem encode_truncates (x : Double) :
    ((∃ o, encode x = .error o) ↔ x.isNaN ∨ x.isInfinite ∨ 2 ^ (127 : ℤ) ≤ |x.value|) ∧
    (encode x = .ok zero ↔ x.isFinite ∧ |x.value| < 2 ^ (-128 : ℤ)) ∧
    (x.isFinite → 2 ^ (-128 : ℤ) ≤ |x.value| → |x.value| < 2 ^ (127 : ℤ) →
      (∃! e, IsScale x.value e) ∧ ∀ e, IsScale x.value e → ∃ b, encode x = .ok b ∧
        (decode b).isFinite ∧
        (decode b).value = SignType.sign x.value * ⌊|x.value| / 2 ^ e⌋ * 2 ^ e) ∧
    (x.isFinite → x.isZero = false → ∃ (m n : ℕ) (s t : Scaling),
      Scaling.EndsAfter Scaling.shrink? m ⟨x.abs, 160⟩ s ∧
      Scaling.EndsAfter Scaling.grow? n s t ∧
      encode x = outcome x t.exponent t.number.value) := by
  refine ⟨encode_eq_error_iff x, encode_eq_zero_iff x, fun hfinite hlow hhigh => ?_,
    fun hfinite hzero => ?_⟩
  · obtain ⟨hzero, hvalue⟩ := value_decode_encode hfinite hlow hhigh
    have hscale := isScale_scale hzero
    refine ⟨⟨x.scale, hscale, fun e he => he.unique hscale⟩, fun e he => ?_⟩
    rwa [he.unique hscale]
  · obtain ⟨s, t, hs, ht, hexponent, hnumber⟩ := Scaling.exists_endsAfter hfinite hzero
    refine ⟨_, _, s, t, hs, ht, ?_⟩
    rw [hexponent, hnumber, encode_eq_outcome hfinite hzero]

/-- The double nearest to -0.1 has 53 bits, of which the last 21 are cut off. -/
theorem encode_truncates_tenth : ∃ (b : FiveByte) (m n : ℕ) (s t : Scaling),
    encode ⟨0xbfb999999999999a⟩ = .ok b ∧
    (⟨0xbfb999999999999a⟩ : Double).value = -(0x1999999999999a * 2 ^ (-56 : ℤ)) ∧
    (decode b).value = -(0xcccccccc * 2 ^ (-35 : ℤ)) ∧
    Scaling.EndsAfter Scaling.shrink? m ⟨Double.abs ⟨0xbfb999999999999a⟩, 160⟩ s ∧
    Scaling.EndsAfter Scaling.grow? n s t := by
  obtain ⟨-, -, hvalue, hloops⟩ := encode_truncates ⟨0xbfb999999999999a⟩
  have htenth : (⟨0xbfb999999999999a⟩ : Double).value = -(0x1999999999999a * 2 ^ (-56 : ℤ)) := by
    rw [value, show (⟨0xbfb999999999999a⟩ : Double).isNegative = true from rfl,
      show (⟨0xbfb999999999999a⟩ : Double).mantissa = 0x1999999999999a from rfl,
      show (⟨0xbfb999999999999a⟩ : Double).exponent = -56 from rfl]
    norm_num
  have hscale : IsScale (-(0x1999999999999a * 2 ^ (-56 : ℤ))) (-35) := by
    constructor <;> norm_num [abs_of_pos]
  have hfloor : ⌊|(-(0x1999999999999a * 2 ^ (-56 : ℤ)) : ℚ)| / 2 ^ (-35 : ℤ)⌋ = 0xcccccccc := by
    rw [Int.floor_eq_iff]
    constructor <;> norm_num [abs_of_pos]
  rw [htenth] at hvalue
  obtain ⟨-, hvalue⟩ := hvalue rfl (by norm_num [abs_of_pos]) (by norm_num [abs_of_pos])
  obtain ⟨b, hb, -, hb'⟩ := hvalue (-35) hscale
  obtain ⟨m, n, s, t, hs, ht, -⟩ := hloops rfl rfl
  rw [hfloor, sign_neg (by norm_num)] at hb'
  refine ⟨b, m, n, s, t, hb, htenth, ?_, hs, ht⟩
  rw [hb']
  norm_num

/-! ### Bytes read back -/

def signBit (b : FiveByte) : ℕ := b.m1.toNat / 0x80

/-- The four bytes of mantissa with the leading one in its place again. -/
def mantissa (b : FiveByte) : ℕ :=
  (((b.m1 ||| 0x80).toNat * 0x100 + b.m2.toNat) * 0x100 + b.m3.toNat) * 0x100 + b.m4.toNat

theorem neg_one_pow_signBit (b : FiveByte) :
    (-1 : ℚ) ^ b.signBit = if b.isNegative then -1 else 1 := by
  have hm1 := b.m1.toNat_lt
  by_cases hsign : 0x80 ≤ b.m1.toNat
  · rw [signBit, show b.m1.toNat / 0x80 = 1 by omega, isNegative, decide_eq_true hsign, pow_one]
    rfl
  · rw [signBit, Nat.div_eq_of_lt (by omega), isNegative, decide_eq_false hsign, pow_zero]
    rfl

theorem mantissa_eq (b : FiveByte) : b.mantissa = 2 ^ 31 + b.fraction := by
  have htop : (b.m1 ||| 0x80).toNat = 0x80 + b.m1.toNat % 0x80 := by
    have hall : ∀ n < 256, n ||| 0x80 = 0x80 + n % 0x80 := by decide +kernel
    exact (UInt8.toNat_or ..).trans (hall _ b.m1.toNat_lt)
  rw [mantissa, fraction, htop]
  omega

theorem mantissa_bounds (b : FiveByte) : 2 ^ 31 ≤ b.mantissa ∧ b.mantissa < 2 ^ 32 := by
  have hfraction := b.fraction_lt
  rw [mantissa_eq]
  omega

/-- Exponent, sign and fraction are all there is. -/
theorem eq_of_parts {b c : FiveByte} (hexponent : b.exponent.toNat = c.exponent.toNat)
    (hsign : b.isNegative = c.isNegative) (hfraction : b.fraction = c.fraction) : b = c := by
  obtain ⟨e, b1, b2, b3, b4⟩ := b
  obtain ⟨f, c1, c2, c3, c4⟩ := c
  have hb := And.intro b1.toNat_lt (And.intro b2.toNat_lt (And.intro b3.toNat_lt b4.toNat_lt))
  have hc := And.intro c1.toNat_lt (And.intro c2.toNat_lt (And.intro c3.toNat_lt c4.toNat_lt))
  simp only [isNegative, decide_eq_decide] at hsign
  simp only [fraction] at hfraction
  simp only [mk.injEq, ← UInt8.toNat_inj]
  refine ⟨hexponent, ?_⟩
  omega

section Decode

variable {b : FiveByte}

theorem value_decode_eq (h : b.exponent ≠ 0) : (decode b).value =
    (-1) ^ b.signBit * b.mantissa * 2 ^ (b.exponent.toNat - 160 : ℤ) := by
  rw [(value_decode h).2, neg_one_pow_signBit, mantissa_eq, mul_assoc]

theorem abs_value_decode (h : b.exponent ≠ 0) :
    |(decode b).value| = b.mantissa * 2 ^ (b.exponent.toNat - 160 : ℤ) := by
  have hnonneg : (0 : ℚ) ≤ b.mantissa * 2 ^ (b.exponent.toNat - 160 : ℤ) := by positivity
  rw [value_decode_eq h, mul_assoc, abs_mul, abs_neg_one_pow, one_mul, abs_of_nonneg hnonneg]

/-- The scale counts off the mantissa whole. -/
theorem abs_value_decode_div (h : b.exponent ≠ 0) :
    |(decode b).value| / 2 ^ (b.exponent.toNat - 160 : ℤ) = b.mantissa := by
  rw [abs_value_decode h, mul_div_cancel_right₀ _ (by positivity)]

theorem isScale_decode (h : b.exponent ≠ 0) :
    IsScale (decode b).value (b.exponent.toNat - 160) := by
  obtain ⟨hlow, hhigh⟩ := b.mantissa_bounds
  rw [IsScale, abs_value_decode_div h]
  exact ⟨by exact_mod_cast hlow, by exact_mod_cast hhigh⟩

/-- Five bytes are in range, and nothing of them is cut off. -/
theorem encode_decode (h : b.exponent ≠ 0) : encode (decode b) = .ok b := by
  have hmin := exponent_toNat_pos h
  have hmax := b.exponent.toNat_lt
  have hscale := isScale_decode h
  obtain ⟨hfinite, hsign, -, -⟩ := parts_decode h
  obtain ⟨hsmall, -⟩ | ⟨hlarge, -⟩ | ⟨-, hzero, c, hc, -, hexponent, hsign', hfraction⟩ :=
    encode_cases hfinite
  · have := (hscale.abs_lt_iff _).mp hsmall
    omega
  · rw [← not_lt, hscale.abs_lt_iff] at hlarge
    omega
  · rw [(isScale_scale hzero).unique hscale] at hexponent hfraction
    rw [abs_value_decode_div h, Nat.floor_natCast, mantissa_eq] at hfraction
    rw [hc, eq_of_parts (b := c) (c := b) (by omega) (hsign'.trans hsign) (by omega)]

end Decode

/-- Five bytes stand for a number of 32 bits, and are had back from it. Where the first byte is
zero, the others count for nothing. -/
theorem encode_undoes_decode (b : FiveByte) :
    (b.exponent ≠ 0 → (decode b).isFinite ∧ (decode b).value ≠ 0 ∧
      (decode b).value = (-1) ^ b.signBit * b.mantissa * 2 ^ (b.exponent.toNat - 160 : ℤ) ∧
      (2 ^ 31 ≤ b.mantissa ∧ b.mantissa < 2 ^ 32) ∧ encode (decode b) = .ok b) ∧
    (b.exponent = 0 → decode b = .zero false ∧ (decode b).value = 0 ∧
      encode (decode b) = .ok zero) := by
  constructor
  · intro h
    have hpos : (0 : ℚ) < b.mantissa := by exact_mod_cast b.mantissa_bounds.1.trans_lt' (by decide)
    have hne : (decode b).value ≠ 0 := by
      rw [← abs_pos, abs_value_decode h]
      positivity
    exact ⟨(parts_decode h).1, hne, value_decode_eq h, b.mantissa_bounds, encode_decode h⟩
  · intro h
    have hzero : decode b = .zero false := if_pos h
    rw [hzero]
    exact ⟨rfl, value_of_isZero rfl, rfl⟩

/-- The bytes of -π, and bytes of which the first is zero. -/
theorem encode_undoes_decode_minusPi :
    (decode ⟨0x82, 0xc9, 0x0f, 0xda, 0xa1⟩).value = -(0xc90fdaa1 * 2 ^ (-30 : ℤ)) ∧
    encode (decode ⟨0x82, 0xc9, 0x0f, 0xda, 0xa1⟩) = .ok ⟨0x82, 0xc9, 0x0f, 0xda, 0xa1⟩ ∧
    encode (decode ⟨0, 0xc9, 0x0f, 0xda, 0xa1⟩) = .ok ⟨0, 0, 0, 0, 0⟩ := by
  obtain ⟨-, -, hvalue, -, hencode⟩ :=
    (encode_undoes_decode ⟨0x82, 0xc9, 0x0f, 0xda, 0xa1⟩).1 (by decide)
  obtain ⟨-, -, hzero⟩ := (encode_undoes_decode ⟨0, 0xc9, 0x0f, 0xda, 0xa1⟩).2 rfl
  refine ⟨?_, hencode, hzero⟩
  have hsign : (⟨0x82, 0xc9, 0x0f, 0xda, 0xa1⟩ : FiveByte).signBit = 1 := rfl
  have hmantissa : (⟨0x82, 0xc9, 0x0f, 0xda, 0xa1⟩ : FiveByte).mantissa = 0xc90fdaa1 := rfl
  have hexponent : (0x82 : UInt8).toNat = 130 := rfl
  rw [hvalue, hsign, hmantissa, hexponent]
  norm_num

end FiveByte

end Stack6502
