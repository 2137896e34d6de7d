import Mathlib.Algebra.Order.Floor.Semifield
import Mathlib.Data.Rat.Floor
import Stack6502.Proofs.NearestDouble

/-!
# The shortest decimal of a double

The decimal that is chosen for a double lies in the rounding range of the double. One of at most
seventeen digits is always found: what the first seventeen digits of the exact value leave open is
less than half the distance to the next double.
-/
namespace Stack6502

/-- The number of digits of a positive number. -/
theorem toDigits_bounds {n size : ℕ} (h : (Nat.toDigits 10 n).length = size + 1) (hn : 0 < n) :
    10 ^ size ≤ n ∧ n < 10 ^ (size + 1) := by
  have hlt := (Nat.length_toDigits_le_iff (b := 10) (by decide) size.succ_pos).mp h.le
  rcases Nat.eq_zero_or_pos size with rfl | hpos
  · exact ⟨hn, hlt⟩
  · have hiff := Nat.length_toDigits_le_iff (b := 10) (n := n) (by decide) hpos
    rw [h] at hiff
    exact ⟨by omega, hlt⟩

namespace Decimal

def value (d : Decimal) : ℚ := d.digits * 10 ^ d.power

def next (d : Decimal) : Decimal := { d with digits := d.digits + 1 }

theorem value_next (d : Decimal) : d.next.value = d.value + 10 ^ d.power := by
  simp only [value, next]
  push_cast
  ring

theorem ratio_spec (d : Decimal) (unit : ℤ) {num den : ℕ} (h : d.ratio unit = (num, den)) :
    0 < den ∧ (num / den : ℚ) = d.value / 2 ^ unit := by
  simp only [ratio, Nat.pow_eq, Prod.mk.injEq] at h
  obtain ⟨rfl, rfl⟩ := h
  refine ⟨by positivity, ?_⟩
  rw [value, zpow_eq_div 10, zpow_eq_div 2]
  push_cast
  field_simp

end Decimal

namespace RoundingRange

/-! ### Candidates -/

section Candidates

variable {r : RoundingRange} {d below : Decimal}

theorem has_iff : r.has d ↔ r.Holds d.value := by
  obtain ⟨num, den, hratio⟩ : ∃ num den, d.ratio r.unit = (num, den) := ⟨_, _, rfl⟩
  obtain ⟨hden, hvalue⟩ := d.ratio_spec r.unit hratio
  have hpos : (0 : ℚ) < den := by exact_mod_cast hden
  rw [Holds, ← hvalue]
  simp only [has, hratio]
  split_ifs
  · rw [le_div_iff₀ hpos, div_le_iff₀ hpos, Bool.and_eq_true, decide_eq_true_eq, decide_eq_true_eq]
    norm_cast
  · rw [lt_div_iff₀ hpos, div_lt_iff₀ hpos, Bool.and_eq_true, decide_eq_true_eq, decide_eq_true_eq]
    norm_cast

theorem nearer_eq_or (r : RoundingRange) (below : Decimal) :
    r.nearer below = below ∨ r.nearer below = below.next := by
  simp only [nearer]
  split_ifs
  · exact .inl rfl
  · exact .inr rfl

theorem pick?_eq (r : RoundingRange) (below : Decimal) : r.pick? below =
    match r.has below, r.has below.next with
    | true, true => some (r.nearer below)
    | true, false => some below
    | false, true => some below.next
    | false, false => none := rfl

/-- What is picked is in the range. -/
theorem Holds.of_pick? (h : r.pick? below = some d) : r.Holds d.value := by
  rw [← has_iff]
  rw [pick?_eq] at h
  split at h
  · next hbelow hnext =>
    cases h
    rcases r.nearer_eq_or below with heq | heq
    · rwa [heq]
    · rwa [heq]
  · next hbelow _ =>
    cases h
    exact hbelow
  · next _ hnext =>
    cases h
    exact hnext
  · cases h

theorem isSome_pick? (h : r.Holds below.value ∨ r.Holds below.next.value) :
    (r.pick? below).isSome := by
  rw [← has_iff, ← has_iff] at h
  rw [pick?_eq]
  split
  · rfl
  · rfl
  · rfl
  · next hbelow hnext => simp [hbelow, hnext] at h

end Candidates

/-! ### Seventeen digits -/

section Seventeen

variable {x : Double} {q : ℚ}

/-- Below a power of two doubles are closer to each other. -/
theorem Holds.of_abs (hx : 0 < x.mantissa)
    (h : |q / 2 ^ x.exponent - x.mantissa| < if x.mantissa = 2 ^ 52 then 1 / 4 else 1 / 2) :
    (ofDouble x).Holds q := by
  have hbounds : (ofDouble x).low < q / 2 ^ (ofDouble x).unit ∧
      q / 2 ^ (ofDouble x).unit < (ofDouble x).high := by
    rw [div_unit, low_ofDouble hx, high_ofDouble]
    rw [abs_lt] at h
    by_cases hpower : x.mantissa = 2 ^ 52
    · rw [if_pos hpower] at h
      constructor
      · split_ifs <;> linarith
      · linarith
    · rw [if_neg hpower] at h
      rw [if_neg fun hand => hpower hand.1]
      constructor
      · linarith
      · linarith
  unfold Holds
  split_ifs
  · exact ⟨hbounds.1.le, hbounds.2.le⟩
  · exact hbounds

/-- Neighbouring decimals of seventeen digits are so close that the nearer one to a double between
them is in its range. -/
theorem Holds.of_neighbours {d : Decimal} (hx : 0 < x.mantissa) (hdigits : 10 ^ 16 ≤ d.digits)
    (hlow : d.value ≤ x.mantissa * 2 ^ x.exponent)
    (hhigh : x.mantissa * 2 ^ x.exponent ≤ d.next.value) :
    (ofDouble x).Holds d.value ∨ (ofDouble x).Holds d.next.value := by
  have hpos : (0 : ℚ) < 2 ^ x.exponent := by positivity
  obtain ⟨gap, hgap⟩ : ∃ gap : ℚ, gap = 10 ^ d.power / 2 ^ x.exponent := ⟨_, rfl⟩
  have hgap_pos : 0 < gap := by
    rw [hgap]
    positivity
  have hcount : d.value / 2 ^ x.exponent = d.digits * gap := by
    rw [Decimal.value, hgap, mul_div_assoc]
  have hcount' : d.next.value / 2 ^ x.exponent = d.digits * gap + gap := by
    rw [Decimal.value_next, add_div, hcount, hgap]
  rw [← div_le_iff₀ hpos, hcount] at hlow
  rw [← le_div_iff₀ hpos, hcount'] at hhigh
  have hdigits' : (10 : ℚ) ^ 16 ≤ d.digits := by exact_mod_cast hdigits
  have hsmall : 10 ^ 16 * gap ≤ x.mantissa :=
    (mul_le_mul_of_nonneg_right hdigits' hgap_pos.le).trans hlow
  have hhalf : gap / 2 < if x.mantissa = 2 ^ 52 then 1 / 4 else 1 / 2 := by
    split_ifs with hpower
    · rw [hpower] at hsmall
      push_cast at hsmall
      linarith
    · have hmantissa : (x.mantissa : ℚ) < 2 ^ 53 := by exact_mod_cast x.mantissa_lt
      linarith
  rcases le_total (x.mantissa : ℚ) (d.digits * gap + gap / 2) with hnear | hnear
  · refine .inl (.of_abs hx (lt_of_le_of_lt ?_ hhalf))
    rw [hcount, abs_le]
    constructor
    · linarith
    · linarith
  · refine .inr (.of_abs hx (lt_of_le_of_lt ?_ hhalf))
    rw [hcount', abs_le]
    constructor
    · linarith
    · linarith

end Seventeen

end RoundingRange

namespace Double

/-! ### The digits of the exact value -/

section Expansion

variable {x : Double}

theorem expansion_bounds (x : Double) :
    (x.expansion : ℚ) ≤ x.mantissa * 2 ^ x.exponent * 10 ^ places ∧
      (x.mantissa * 2 ^ x.exponent * 10 ^ places : ℚ) < x.expansion + 1 := by
  obtain ⟨num, hnum⟩ : ∃ num, num = x.mantissa * 10 ^ places * 2 ^ x.exponent.toNat := ⟨_, rfl⟩
  have hexpansion : x.expansion = num / 2 ^ (-x.exponent).toNat := by
    rw [hnum, expansion, Nat.pow_eq, Nat.pow_eq, Nat.pow_eq]
  have hvalue : (x.mantissa * 2 ^ x.exponent * 10 ^ places : ℚ) =
      num / (2 ^ (-x.exponent).toNat : ℕ) := by
    rw [hnum, zpow_eq_div 2]
    push_cast
    ring
  rw [hexpansion, hvalue, ← Nat.floor_div_eq_div (K := ℚ)]
  exact ⟨Nat.floor_le (by positivity), Nat.lt_floor_add_one _⟩

theorem le_expansion (hx : 0 < x.mantissa) : 10 ^ 16 ≤ x.expansion := by
  have hmin := x.le_exponent
  have hpow : 2 ^ (-x.exponent).toNat ≤ 2 ^ 1074 := pow_le_pow_right₀ one_le_two (by omega)
  have hfactor : 0 < 2 ^ x.exponent.toNat := by positivity
  rw [expansion, Nat.pow_eq, Nat.pow_eq, Nat.pow_eq, Nat.le_div_iff_mul_le (by positivity)]
  have hplaces : 10 ^ 16 * 2 ^ 1074 ≤ 10 ^ places := by decide +kernel
  generalize 10 ^ places = scale at *
  calc 10 ^ 16 * 2 ^ (-x.exponent).toNat ≤ 10 ^ 16 * 2 ^ 1074 := Nat.mul_le_mul_left _ hpow
    _ ≤ scale := hplaces
    _ ≤ x.mantissa * scale := Nat.le_mul_of_pos_left _ hx
    _ ≤ x.mantissa * scale * 2 ^ x.exponent.toNat := Nat.le_mul_of_pos_right _ hfactor

/-- The exact value lies between its first digits and the next number of as many digits. -/
theorem leading_bounds (x : Double) (size count : ℕ) :
    (leading x.expansion size count).value ≤ x.mantissa * 2 ^ x.exponent ∧
      x.mantissa * 2 ^ x.exponent ≤ (leading x.expansion size count).next.value := by
  obtain ⟨hlow, hhigh⟩ := x.expansion_bounds
  obtain ⟨cut, hcut⟩ : ∃ cut, cut = size - count := ⟨_, rfl⟩
  obtain ⟨digits, hdigits⟩ : ∃ digits, digits = x.expansion / 10 ^ cut := ⟨_, rfl⟩
  have hscale : (0 : ℚ) < 10 ^ places := by positivity
  have hpower : (10 : ℚ) ^ ((cut : ℤ) - (places : ℤ)) = 10 ^ cut / 10 ^ places := by
    rw [zpow_sub₀ (by norm_num), zpow_natCast, zpow_natCast]
  have hlow' : (digits * 10 ^ cut : ℚ) ≤ x.expansion := by
    exact_mod_cast hdigits ▸ Nat.div_mul_le_self x.expansion (10 ^ cut)
  have hhigh' : (x.expansion : ℚ) + 1 ≤ 10 ^ cut * (digits + 1) := by
    exact_mod_cast hdigits ▸ Nat.lt_mul_div_succ x.expansion (by positivity : 0 < 10 ^ cut)
  have hvalue : (leading x.expansion size count).value = digits * (10 ^ cut / 10 ^ places) := by
    rw [← hpower, hdigits, hcut]
    rfl
  have hnext : (leading x.expansion size count).next.value =
      (digits + 1) * (10 ^ cut / 10 ^ places) := by
    have hpower' : (leading x.expansion size count).power = cut - places := by
      rw [hcut]
      rfl
    rw [Decimal.value_next, hvalue, hpower', hpower, add_one_mul]
  rw [hvalue, hnext]
  constructor
  · rw [← mul_div_assoc, div_le_iff₀ hscale]
    linarith
  · rw [← mul_div_assoc, le_div_iff₀ hscale]
    linarith

theorem le_digits_leading {size : ℕ} (hx : 0 < x.mantissa)
    (h : (Nat.toDigits 10 x.expansion).length = size) :
    10 ^ 16 ≤ (leading x.expansion size 17).digits := by
  have hlarge := le_expansion hx
  have hsize : 16 < size := by
    have hiff := Nat.length_toDigits_le_iff (b := 10) (n := x.expansion) (k := 16) (by decide)
      (by decide)
    rw [h] at hiff
    omega
  obtain ⟨more, rfl⟩ := Nat.exists_eq_add_of_lt hsize
  obtain ⟨hpow, -⟩ := toDigits_bounds h (by omega)
  have hpow' : 10 ^ 16 * 10 ^ more ≤ x.expansion := by rwa [← pow_add]
  rw [leading, Nat.pow_eq, show 16 + more + 1 - 17 = more by omega]
  exact (Nat.le_div_iff_mul_le (by positivity)).mpr hpow'

/-- The shortest decimal of a double is rounded to the double. -/
theorem holds_shortest (hx : 0 < x.mantissa) :
    (RoundingRange.ofDouble x).Holds x.shortest.value := by
  obtain ⟨size, hsize⟩ : ∃ size, (Nat.toDigits 10 x.expansion).length = size := ⟨_, rfl⟩
  obtain ⟨hlow, hhigh⟩ := x.leading_bounds size 17
  have hlast := RoundingRange.isSome_pick?
    (RoundingRange.Holds.of_neighbours hx (le_digits_leading hx hsize) hlow hhigh)
  obtain ⟨d, hd⟩ : ∃ d, (List.range 17).findSome? (fun n =>
      (RoundingRange.ofDouble x).pick? (leading x.expansion size (n + 1))) = some d := by
    rw [← Option.isSome_iff_exists, List.findSome?_isSome_iff]
    exact ⟨16, by decide, hlast⟩
  have hshortest : x.shortest = d := by
    simp only [shortest, hsize, hd]
    rfl
  obtain ⟨n, -, hpick⟩ := List.exists_of_findSome?_eq_some hd
  rw [hshortest]
  exact .of_pick? hpick

end Expansion

end Double

end Stack6502
