import Mathlib.Algebra.Order.Field.Basic
import Mathlib.Algebra.Order.Field.Power
import Mathlib.Data.Nat.Log
import Mathlib.Data.Rat.Cast.Order
import Mathlib.Tactic.FieldSimp
import Mathlib.Tactic.Linarith
import Mathlib.Tactic.NormNum
import Mathlib.Tactic.Ring
import Stack6502.Number.Shortest

/-!
# The nearest double

Every number in the rounding range of a double is read as that double. Numbers are counted in a
power of two, their unit, so that a double is a whole number of them.
-/
namespace Stack6502

/-- A power as a ratio of two of which one is trivial. -/
theorem zpow_eq_div (b : ℚ) (e : ℤ) : b ^ e = b ^ e.toNat / b ^ (-e).toNat := by
  rcases le_total 0 e with h | h
  · obtain ⟨n, rfl⟩ := Int.eq_ofNat_of_zero_le h
    simp
  · obtain ⟨n, hn⟩ := Int.eq_ofNat_of_zero_le (neg_nonneg.mpr h)
    obtain rfl : e = -n := by omega
    simp

namespace Double

/-! ### Counting in units -/

theorem div_eq_whole_add (a : ℕ) {b : ℕ} (hb : 0 < b) :
    (a / b : ℚ) = (a / b : ℕ) + (a % b : ℕ) / b := by
  have hdiv : (b : ℚ) * (a / b : ℕ) + (a % b : ℕ) = a := by exact_mod_cast Nat.div_add_mod a b
  have hne : (b : ℚ) ≠ 0 := by positivity
  field_simp
  linarith

/-- A ratio is a whole number of units and a part of one. -/
theorem inUnits_spec {num den : ℕ} (hden : 0 < den) (unit : ℤ) {whole left scale : ℕ}
    (h : inUnits num den unit = (whole, left, scale)) :
    left < scale ∧ (num / den : ℚ) = (whole + left / scale) * 2 ^ unit := by
  simp only [inUnits, Nat.pow_eq, Prod.mk.injEq] at h
  obtain ⟨rfl, rfl, rfl⟩ := h
  have hpos : 0 < den * 2 ^ unit.toNat := by positivity
  refine ⟨Nat.mod_lt _ hpos, ?_⟩
  have hden' : (den : ℚ) ≠ 0 := by positivity
  rw [← div_eq_whole_add _ hpos, zpow_eq_div]
  push_cast
  field_simp

theorem zpow_mul_pow {e : ℤ} {m n : ℕ} (h : e + m = n) : (2 : ℚ) ^ e * 2 ^ m = 2 ^ n := by
  rw [← zpow_natCast, ← zpow_natCast, ← zpow_add₀ two_ne_zero, h]

/-- A ratio in terms of the sizes of its parts. -/
theorem ratio_bounds {num den : ℕ} (hnum : 0 < num) (hden : 0 < den) :
    (2 : ℚ) ^ (num.log2 - den.log2 - 1 : ℤ) < num / den ∧
      (num / den : ℚ) < 2 ^ (num.log2 - den.log2 + 1 : ℤ) := by
  have hlow : ((2 : ℚ) ^ num.log2) ≤ num := by exact_mod_cast Nat.log2_self_le hnum.ne'
  have hhigh : (num : ℚ) < 2 ^ (num.log2 + 1) := by exact_mod_cast Nat.lt_log2_self
  have hlow' : ((2 : ℚ) ^ den.log2) ≤ den := by exact_mod_cast Nat.log2_self_le hden.ne'
  have hhigh' : (den : ℚ) < 2 ^ (den.log2 + 1) := by exact_mod_cast Nat.lt_log2_self
  have hpos : (0 : ℚ) < den := by exact_mod_cast hden
  constructor
  · have hpow : (2 : ℚ) ^ (num.log2 - den.log2 - 1 : ℤ) * 2 ^ (den.log2 + 1) = 2 ^ num.log2 :=
      zpow_mul_pow (by omega)
    rw [lt_div_iff₀ hpos]
    calc (2 : ℚ) ^ (num.log2 - den.log2 - 1 : ℤ) * den
        < 2 ^ (num.log2 - den.log2 - 1 : ℤ) * 2 ^ (den.log2 + 1) := by gcongr
      _ = 2 ^ num.log2 := hpow
      _ ≤ num := hlow
  · have hpow : (2 : ℚ) ^ (num.log2 - den.log2 + 1 : ℤ) * 2 ^ den.log2 = 2 ^ (num.log2 + 1) :=
      zpow_mul_pow (by omega)
    rw [div_lt_iff₀ hpos]
    calc (num : ℚ) < 2 ^ (num.log2 + 1) := hhigh
      _ = 2 ^ (num.log2 - den.log2 + 1 : ℤ) * 2 ^ den.log2 := hpow.symm
      _ ≤ 2 ^ (num.log2 - den.log2 + 1 : ℤ) * den := by gcongr

theorem part_bounds {left scale : ℕ} (h : left < scale) :
    (0 : ℚ) ≤ left / scale ∧ (left / scale : ℚ) < 1 := by
  have hscale : (0 : ℚ) < scale := by exact_mod_cast Nat.zero_lt_of_lt h
  exact ⟨by positivity, (div_lt_one hscale).mpr (by exact_mod_cast h)⟩

/-- The unit before it is kept from being too small. -/
theorem exists_unit {num den : ℕ} (hnum : 0 < num) (hden : 0 < den) :
    ∃ unit : ℤ, unitOf num den = max (-1074) unit ∧ (2 : ℚ) ^ 52 * 2 ^ unit ≤ num / den ∧
      (num / den : ℚ) < 2 ^ 53 * 2 ^ unit := by
  obtain ⟨hlow, hhigh⟩ := ratio_bounds hnum hden
  obtain ⟨guess, hguess⟩ : ∃ guess : ℤ, guess = num.log2 - den.log2 - 52 := ⟨_, rfl⟩
  rw [show (num.log2 - den.log2 - 1 : ℤ) = 51 + guess by omega, zpow_add₀ two_ne_zero] at hlow
  rw [show (num.log2 - den.log2 + 1 : ℤ) = 53 + guess by omega, zpow_add₀ two_ne_zero] at hhigh
  obtain ⟨whole, left, scale, hunits⟩ : ∃ whole left scale,
      inUnits num den guess = (whole, left, scale) := ⟨_, _, _, rfl⟩
  obtain ⟨hleft, hratio⟩ := inUnits_spec hden guess hunits
  have hunit : unitOf num den = max (-1074) (if whole < 2 ^ 52 then guess - 1 else guess) := by
    rw [unitOf, ← hguess, hunits]
    rfl
  have hpart := part_bounds hleft
  have hpos : (0 : ℚ) < 2 ^ guess := by positivity
  refine ⟨_, hunit, ?_⟩
  split_ifs with hwhole
  · have hwhole' : (whole : ℚ) + 1 ≤ 2 ^ 52 := by exact_mod_cast hwhole
    rw [zpow_sub_one₀ two_ne_zero]
    constructor
    · linarith
    · rw [hratio]
      nlinarith
  · have hwhole' : (2 : ℚ) ^ 52 ≤ whole := by exact_mod_cast not_lt.mp hwhole
    constructor
    · rw [hratio]
      nlinarith
    · exact hhigh

/-- The unit is the one in which the ratio has 53 bits, or the smallest. -/
theorem unitOf_spec {num den : ℕ} (hnum : 0 < num) (hden : 0 < den) :
    -1074 ≤ unitOf num den ∧ (num / den : ℚ) < 2 ^ 53 * 2 ^ unitOf num den ∧
      (unitOf num den = -1074 ∨ 2 ^ 52 * 2 ^ unitOf num den ≤ (num / den : ℚ)) := by
  obtain ⟨unit, hunit, hlow, hhigh⟩ := exists_unit hnum hden
  rw [hunit]
  refine ⟨le_max_left .., ?_, ?_⟩
  · calc (num / den : ℚ) < 2 ^ 53 * 2 ^ unit := hhigh
      _ ≤ 2 ^ 53 * 2 ^ max (-1074) unit := by
        gcongr
        · norm_num
        · exact le_max_right ..
  · rcases le_total unit (-1074) with h | h
    · exact .inl (max_eq_left h)
    · right
      rwa [max_eq_right h]

theorem unit_le_of_ratio {q : ℚ} {a b : ℤ} (ha : -1074 ≤ a) (hhigh : q < 2 ^ 53 * 2 ^ a)
    (hlow : b = -1074 ∨ 2 ^ 52 * 2 ^ b ≤ q) : b ≤ a := by
  rcases hlow with rfl | hlow
  · exact ha
  · have hlt : (2 : ℚ) ^ b < 2 ^ (a + 1) := by
      rw [zpow_add_one₀ two_ne_zero]
      linarith
    have := (zpow_lt_zpow_iff_right₀ one_lt_two).mp hlt
    omega

/-- The unit is known by what it is to the ratio. -/
theorem unitOf_eq {num den : ℕ} {unit : ℤ} (hnum : 0 < num) (hden : 0 < den)
    (hmin : -1074 ≤ unit) (hhigh : (num / den : ℚ) < 2 ^ 53 * 2 ^ unit)
    (hlow : unit = -1074 ∨ 2 ^ 52 * 2 ^ unit ≤ (num / den : ℚ)) : unitOf num den = unit := by
  obtain ⟨hmin', hhigh', hlow'⟩ := unitOf_spec hnum hden
  exact le_antisymm (unit_le_of_ratio hmin hhigh hlow') (unit_le_of_ratio hmin' hhigh' hlow)

/-! ### Rounding -/

/-- `s` is rounded to `k`: it is nearer to `k` than to any other whole number, or in the middle with
`k` even. -/
structure IsNear (s : ℚ) (k : ℕ) : Prop where
  low : k - 1 / 2 ≤ s
  high : s ≤ k + 1 / 2
  low_odd : k % 2 = 1 → k - 1 / 2 < s
  high_odd : k % 2 = 1 → s < k + 1 / 2

theorem IsNear.round {whole left scale k : ℕ} (hleft : left < scale)
    (h : IsNear (whole + left / scale) k) :
    (if 2 * left > scale || (2 * left == scale && whole % 2 == 1) then whole + 1 else whole) =
      k := by
  have hscale : (0 : ℚ) < scale := by exact_mod_cast Nat.zero_lt_of_lt hleft
  have hle : (left / scale : ℚ) ≤ 1 / 2 ↔ 2 * left ≤ scale := by
    rw [div_le_div_iff₀ hscale two_pos]
    norm_cast
    omega
  have hge : 1 / 2 ≤ (left / scale : ℚ) ↔ scale ≤ 2 * left := by
    rw [div_le_div_iff₀ two_pos hscale]
    norm_cast
    omega
  obtain ⟨hpos, hlt⟩ := part_bounds hleft
  obtain ⟨hlow, hhigh, hlow_odd, hhigh_odd⟩ := h
  have hk : whole < k + 1 ∧ k < whole + 2 := by
    constructor
    · exact_mod_cast (by linarith : (whole : ℚ) < k + 1)
    · exact_mod_cast (by linarith : (k : ℚ) < whole + 2)
  obtain rfl | rfl : k = whole ∨ k = whole + 1 := by omega
  · have hhalf := hle.mp (by linarith)
    have htie : k % 2 = 1 → ¬ scale ≤ 2 * left := fun hodd => by
      rw [← hge]
      linarith [hhigh_odd hodd]
    rw [if_neg]
    simp only [gt_iff_lt, Bool.or_eq_true, decide_eq_true_eq, Bool.and_eq_true, beq_iff_eq]
    omega
  · push_cast at hlow hlow_odd
    have hhalf := hge.mp (by linarith)
    have htie : (whole + 1) % 2 = 1 → ¬ 2 * left ≤ scale := fun hodd => by
      rw [← hle]
      linarith [hlow_odd hodd]
    rw [if_pos]
    simp only [gt_iff_lt, Bool.or_eq_true, decide_eq_true_eq, Bool.and_eq_true, beq_iff_eq]
    omega

/-- A ratio near a whole number of its units becomes the double with that many. -/
theorem ofRatio_of_isNear {num den k : ℕ} (negative : Bool) (hnum : 0 < num) (hden : 0 < den)
    (h : IsNear (num / den / 2 ^ unitOf num den) k) :
    ofRatio negative num den =
      if 2047 * 2 ^ 52 ≤ (unitOf num den + 1074).toNat * 2 ^ 52 + k then infinity negative
      else ofFields negative 0 ((unitOf num den + 1074).toNat * 2 ^ 52 + k) := by
  obtain ⟨whole, left, scale, hunits⟩ : ∃ whole left scale,
      inUnits num den (unitOf num den) = (whole, left, scale) := ⟨_, _, _, rfl⟩
  obtain ⟨hleft, hratio⟩ := inUnits_spec hden _ hunits
  have hunit : (2 : ℚ) ^ unitOf num den ≠ 0 := by positivity
  rw [hratio, mul_div_cancel_right₀ _ hunit] at h
  rw [ofRatio, if_neg hnum.ne']
  simp only [hunits, h.round hleft, Nat.pow_eq]

/-! ### The parts of a double -/

section Fields

variable (x : Double)

theorem fraction_lt : x.fraction < 2 ^ 52 := Nat.mod_lt _ (by decide)

theorem bits_eq : x.bits.toNat = (if x.isNegative then 2 ^ 63 else 0) +
    (x.exponentField * 2 ^ 52 + x.fraction) := by
  have hlt := x.bits.toNat_lt
  simp only [isNegative, exponentField, fraction, Nat.pow_eq, decide_eq_true_eq]
  split_ifs <;> omega

theorem ofFields_self :
    ofFields x.isNegative 0 (x.exponentField * 2 ^ 52 + x.fraction) = x := by
  have hbits : (if x.isNegative then Nat.pow 2 63 else 0) + 0 * Nat.pow 2 52 +
      (x.exponentField * 2 ^ 52 + x.fraction) = x.bits.toNat := by
    rw [zero_mul, add_zero]
    exact x.bits_eq.symm
  rw [ofFields, hbits, UInt64.ofNat_toNat]

theorem mantissa_lt : x.mantissa < 2 ^ 53 := by
  have hlt := x.fraction_lt
  simp only [mantissa, Nat.pow_eq]
  split_ifs <;> omega

theorem le_exponent : -1074 ≤ x.exponent := by
  unfold exponent
  split_ifs <;> omega

/-- A double is small or has all its bits. -/
theorem exponent_eq_or_le_mantissa : x.exponent = -1074 ∨
    1 < x.exponentField ∧ 2 ^ 52 ≤ x.mantissa := by
  simp only [mantissa, exponent, Nat.pow_eq]
  split_ifs <;> omega

theorem fields_eq : (x.exponent + 1074).toNat * 2 ^ 52 + x.mantissa =
    x.exponentField * 2 ^ 52 + x.fraction := by
  unfold mantissa exponent
  rw [Nat.pow_eq]
  by_cases h : x.exponentField = 0
  · rw [if_pos h, if_pos h]
    omega
  · rw [if_neg h, if_neg h]
    omega

variable {x}

/-- A power of two counted in half its unit. -/
theorem fields_of_power (hpower : x.mantissa = 2 ^ 52) (hne : x.exponent ≠ -1074) :
    (x.exponent - 1 + 1074).toNat * 2 ^ 52 + 2 ^ 53 = x.exponentField * 2 ^ 52 + x.fraction := by
  have hmin := x.le_exponent
  obtain ⟨n, hn⟩ : ∃ n : ℕ, x.exponent + 1074 = n + 1 :=
    ⟨(x.exponent + 1073).toNat, by omega⟩
  rw [← x.fields_eq, hpower, show x.exponent - 1 + 1074 = n by omega, hn]
  omega

theorem exponentField_lt (h : x.isFinite) : x.exponentField < 2047 := by
  have hfield : x.exponentField < 2 ^ 11 := Nat.mod_lt _ (by decide)
  have hfinite : x.exponentField ≠ 2047 := by simpa [isFinite] using h
  omega

theorem fields_lt (h : x.isFinite) : x.exponentField * 2 ^ 52 + x.fraction < 2047 * 2 ^ 52 := by
  have hlt := x.fraction_lt
  have hfield := exponentField_lt h
  omega

theorem exponent_le (h : x.isFinite) : x.exponent ≤ 971 := by
  have hfield := exponentField_lt h
  unfold exponent
  split_ifs <;> omega

theorem isNaN_of_isFinite (h : x.isFinite) : x.isNaN = false ∧ x.isInfinite = false := by
  simp [isNaN, isInfinite, (exponentField_lt h).ne]

theorem isInfinite_of_isNaN (hfinite : x.isFinite = false) (hnan : x.isNaN = false) :
    x.isInfinite := by
  have hfield : x.exponentField = 2047 := by simpa [isFinite] using hfinite
  simpa [isInfinite, isNaN, hfield] using hnan

theorem mantissa_pos (hzero : x.isZero = false) : 0 < x.mantissa := by
  have hfields : x.exponentField = 0 → x.fraction ≠ 0 := by simpa [isZero] using hzero
  unfold mantissa
  split_ifs with hfield
  · exact Nat.pos_of_ne_zero (hfields hfield)
  · exact Nat.add_pos_left (by decide) _

/-- The fields of a double that is put together from them. -/
theorem fields_ofFields (negative : Bool) {bits : ℕ} (h : bits < 2 ^ 63) :
    (ofFields negative 0 bits).isNegative = negative ∧
      (ofFields negative 0 bits).exponentField = bits / 2 ^ 52 ∧
      (ofFields negative 0 bits).fraction = bits % 2 ^ 52 := by
  have hbits : (ofFields negative 0 bits).bits.toNat = (if negative then 2 ^ 63 else 0) + bits := by
    rw [ofFields, Nat.zero_mul, Nat.add_zero, Nat.pow_eq]
    refine UInt64.toNat_ofNat_of_lt' ?_
    rw [show UInt64.size = 2 ^ 64 from rfl]
    split_ifs <;> omega
  simp only [isNegative, exponentField, fraction, hbits, Nat.pow_eq]
  cases negative with
  | false =>
    simp only [Bool.false_eq_true, if_false, decide_eq_false_iff_not]
    omega
  | true =>
    simp only [if_true, decide_eq_true_eq]
    omega

end Fields

end Double

namespace RoundingRange

def Holds (r : RoundingRange) (q : ℚ) : Prop :=
  if r.closed then r.low ≤ q / 2 ^ r.unit ∧ q / 2 ^ r.unit ≤ r.high
  else r.low < q / 2 ^ r.unit ∧ q / 2 ^ r.unit < r.high

theorem Holds.le {r : RoundingRange} {q : ℚ} (h : r.Holds q) :
    r.low ≤ q / 2 ^ r.unit ∧ q / 2 ^ r.unit ≤ r.high := by
  unfold Holds at h
  split_ifs at h
  · exact h
  · exact ⟨h.1.le, h.2.le⟩

theorem Holds.lt {r : RoundingRange} {q : ℚ} (h : r.Holds q) (hopen : r.closed = false) :
    r.low < q / 2 ^ r.unit ∧ q / 2 ^ r.unit < r.high := by
  rwa [Holds, hopen, if_neg Bool.false_ne_true] at h

section OfDouble

variable {x : Double} {q : ℚ}

theorem div_unit (x : Double) (q : ℚ) : q / 2 ^ (ofDouble x).unit = 4 * (q / 2 ^ x.exponent) := by
  have hunit : (2 : ℚ) ^ (x.exponent - 2) = 2 ^ x.exponent / 4 := by
    rw [zpow_sub₀ two_ne_zero]
    norm_num
  rw [show (ofDouble x).unit = x.exponent - 2 from rfl, hunit]
  field_simp

/-- The lower end of the range is half a unit down, or a quarter below a power of two. -/
theorem low_ofDouble (hx : 0 < x.mantissa) : ((ofDouble x).low : ℚ) =
    4 * x.mantissa - if x.mantissa = 2 ^ 52 ∧ 1 < x.exponentField then 1 else 2 := by
  have hlow : (ofDouble x).low + (if x.mantissa = 2 ^ 52 ∧ 1 < x.exponentField then 1 else 2) =
      4 * x.mantissa := by
    simp only [ofDouble, Nat.pow_eq, gt_iff_lt, Bool.and_eq_true, beq_iff_eq, decide_eq_true_eq]
    split_ifs <;> omega
  rw [eq_sub_iff_add_eq]
  exact_mod_cast hlow

theorem high_ofDouble (x : Double) : ((ofDouble x).high : ℚ) = 4 * x.mantissa + 2 := by
  exact_mod_cast (rfl : (ofDouble x).high = 4 * x.mantissa + 2)

/-- The range of a double counted in its own unit. -/
theorem Holds.isNear (hx : 0 < x.mantissa) (h : (ofDouble x).Holds q) :
    Double.IsNear (q / 2 ^ x.exponent) x.mantissa := by
  have hlow : 4 * (x.mantissa : ℚ) - 2 ≤ (ofDouble x).low := by
    rw [low_ofDouble hx]
    split_ifs <;> linarith
  have hhigh := high_ofDouble x
  have hle := h.le
  have hlt (hodd : x.mantissa % 2 = 1) := h.lt (by simp [ofDouble, hodd])
  simp only [div_unit] at hle hlt
  constructor
  · linarith [hle.1]
  · linarith [hle.2]
  · intro hodd
    linarith [(hlt hodd).1]
  · intro hodd
    linarith [(hlt hodd).2]

/-- A number in the range of a double but below all that has its unit: the double is a power of
two, and the number is at most a quarter unit away. -/
theorem Holds.below_power (hx : 0 < x.mantissa) (h : (ofDouble x).Holds q)
    (hmin : x.exponent ≠ -1074) (hbelow : q / 2 ^ x.exponent < 2 ^ 52) :
    x.mantissa = 2 ^ 52 ∧ 2 ^ 52 - 1 / 4 ≤ q / 2 ^ x.exponent := by
  obtain ⟨hfield, hnormal⟩ := x.exponent_eq_or_le_mantissa.resolve_left hmin
  have hpower : x.mantissa = 2 ^ 52 := by
    have hlt : (x.mantissa : ℚ) < 2 ^ 52 + 1 := by linarith [(h.isNear hx).low]
    have hlt' : x.mantissa < 2 ^ 52 + 1 := by exact_mod_cast hlt
    omega
  have hlow := h.le.1
  rw [low_ofDouble hx, if_pos ⟨hpower, hfield⟩, div_unit, hpower] at hlow
  push_cast at hlow
  exact ⟨hpower, by linarith⟩

end OfDouble

end RoundingRange

namespace Double

open RoundingRange

variable {x : Double} {num den : ℕ}

theorem ofRatio_of_fields {unit : ℤ} {k : ℕ} (hfinite : x.isFinite) (hnum : 0 < num)
    (hden : 0 < den) (hunit : unitOf num den = unit) (hnear : IsNear (num / den / 2 ^ unit) k)
    (hfields : (unit + 1074).toNat * 2 ^ 52 + k = x.exponentField * 2 ^ 52 + x.fraction) :
    ofRatio x.isNegative num den = x := by
  rw [← hunit] at hnear
  rw [ofRatio_of_isNear _ hnum hden hnear, hunit, hfields, if_neg (fields_lt hfinite).not_ge,
    x.ofFields_self]

/-- A number in the rounding range of a double is read as that double. -/
theorem ofRatio_eq (hfinite : x.isFinite) (hx : 0 < x.mantissa) (hnum : 0 < num) (hden : 0 < den)
    (h : (ofDouble x).Holds (num / den)) : ofRatio x.isNegative num den = x := by
  have hpos : (0 : ℚ) < 2 ^ x.exponent := by positivity
  have hmin := x.le_exponent
  have hnear := h.isNear hx
  by_cases hsame : x.exponent = -1074 ∨ 2 ^ 52 * 2 ^ x.exponent ≤ (num / den : ℚ)
  · have hmantissa : (x.mantissa : ℚ) + 1 ≤ 2 ^ 53 := by exact_mod_cast x.mantissa_lt
    have hhigh : (num / den : ℚ) < 2 ^ 53 * 2 ^ x.exponent := by
      rw [← div_lt_iff₀ hpos]
      linarith [hnear.high]
    exact ofRatio_of_fields hfinite hnum hden (unitOf_eq hnum hden hmin hhigh hsame) hnear
      x.fields_eq
  · -- The number lies below a power of two, where units are half as large.
    obtain ⟨hne, hbelow⟩ := not_or.mp hsame
    rw [← le_div_iff₀ hpos, not_le] at hbelow
    obtain ⟨hpower, hlow⟩ := h.below_power hx hne hbelow
    have hhalf : (2 : ℚ) ^ (x.exponent - 1) = 2 ^ x.exponent / 2 := zpow_sub_one₀ two_ne_zero _
    have hcount : (num / den / 2 ^ (x.exponent - 1) : ℚ) = 2 * (num / den / 2 ^ x.exponent) := by
      rw [hhalf]
      field_simp
    have hpos' : (0 : ℚ) < 2 ^ (x.exponent - 1) := by positivity
    have hunit : unitOf num den = x.exponent - 1 := by
      refine unitOf_eq hnum hden (by omega) ?_ (.inr ?_)
      · rw [← div_lt_iff₀ hpos', hcount]
        linarith
      · rw [← le_div_iff₀ hpos', hcount]
        linarith
    have hnear' : IsNear (num / den / 2 ^ (x.exponent - 1)) (2 ^ 53) := by
      rw [hcount]
      refine ⟨?_, ?_, by simp, by simp⟩
      · push_cast
        linarith
      · push_cast
        linarith
    exact ofRatio_of_fields hfinite hnum hden hunit hnear' (fields_of_power hpower hne)

end Double

end Stack6502
