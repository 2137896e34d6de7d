import Stack6502.Program.Listing
import Stack6502.Proofs.DecimalLiterals
import Stack6502.Proofs.ShortestDecimal

/-!
# Floats read back

A float is written with the digits of its shortest decimal, positionally or with an exponent. Either
way the literal has the value of the decimal, which lies in the rounding range of the float. So the
float is what the literal is read as.
-/
namespace Stack6502

namespace FloatLiteral

/-! ### Numbers in the rounding range -/

section Range

open RoundingRange

variable {x : Double} {q : ℚ} {n : ℕ} {e : ℤ}

theorem holds_bounds (hfinite : x.isFinite) (hx : 0 < x.mantissa) (h : (ofDouble x).Holds q) :
    (2 : ℚ) ^ (-1075 : ℤ) ≤ q ∧ q < 2 ^ (1024 : ℤ) := by
  have hpos : (0 : ℚ) < 2 ^ x.exponent := by positivity
  have hnear := h.isNear hx
  have hone : (1 : ℚ) ≤ x.mantissa := by exact_mod_cast hx
  have hmantissa : (x.mantissa : ℚ) + 1 ≤ 2 ^ 53 := by exact_mod_cast x.mantissa_lt
  constructor
  · have hhalf : 1 / 2 ≤ q / 2 ^ x.exponent := by linarith [hnear.low]
    rw [le_div_iff₀ hpos] at hhalf
    calc (2 : ℚ) ^ (-1075 : ℤ) = 1 / 2 * 2 ^ (-1074 : ℤ) := by
          rw [show (-1075 : ℤ) = -1074 - 1 by norm_num, zpow_sub_one₀ two_ne_zero]
          ring
      _ ≤ 1 / 2 * 2 ^ x.exponent := by
          gcongr
          · exact one_le_two
          · exact x.le_exponent
      _ ≤ q := hhalf
  · have hlt : q / 2 ^ x.exponent < 2 ^ 53 := by linarith [hnear.high]
    rw [div_lt_iff₀ hpos] at hlt
    calc q < 2 ^ 53 * 2 ^ x.exponent := hlt
      _ ≤ 2 ^ 53 * 2 ^ (971 : ℤ) := by
          gcongr
          · exact one_le_two
          · exact x.exponent_le hfinite
      _ = 2 ^ (1024 : ℤ) := by
          rw [show (1024 : ℤ) = 53 + 971 by norm_num, zpow_add₀ two_ne_zero, zpow_ofNat 2 53]

/-- A decimal between powers of ten. -/
theorem decimalSize_bounds (hn : 0 < n) : (10 : ℚ) ^ (decimalSize n + e - 1) ≤ n * 10 ^ e ∧
    (n * 10 ^ e : ℚ) < 10 ^ (decimalSize n + e) := by
  obtain ⟨size, hsize⟩ := Nat.exists_eq_add_of_lt (Nat.length_toDigits_pos (b := 10) (n := n))
  rw [Nat.zero_add] at hsize
  obtain ⟨hlow, hhigh⟩ := toDigits_bounds hsize hn
  have hlow' : (10 : ℚ) ^ size ≤ n := by exact_mod_cast hlow
  have hhigh' : (n : ℚ) < 10 ^ (size + 1) := by exact_mod_cast hhigh
  have hdecimal : decimalSize n = size + 1 := by rw [decimalSize, if_neg hn.ne', hsize]
  have hpos : (0 : ℚ) < 10 ^ e := by positivity
  rw [hdecimal]
  constructor
  · rw [show ((size + 1 : ℕ) : ℤ) + e - 1 = size + e by push_cast; ring, zpow_add₀ (by norm_num),
      zpow_natCast]
    gcongr
  · rw [zpow_add₀ (by norm_num), zpow_natCast]
    gcongr

theorem pos_of_holds (hx : 0 < x.mantissa) (h : (ofDouble x).Holds (n * 10 ^ e)) : 0 < n := by
  refine Nat.pos_of_ne_zero fun hzero => ?_
  have hlow := (h.isNear hx).low
  have hone : (1 : ℚ) ≤ x.mantissa := by exact_mod_cast hx
  rw [hzero, Nat.cast_zero, zero_mul, zero_div] at hlow
  linarith

theorem size_bounds (hfinite : x.isFinite) (hx : 0 < x.mantissa)
    (h : (ofDouble x).Holds (n * 10 ^ e)) :
    -330 ≤ decimalSize n + e ∧ decimalSize n + e ≤ 310 := by
  obtain ⟨hlow, hhigh⟩ := holds_bounds hfinite hx h
  obtain ⟨hlow', hhigh'⟩ := decimalSize_bounds (e := e) (pos_of_holds hx h)
  have hten : (1 : ℚ) < 10 := by norm_num
  have hsmall : (10 : ℚ) ^ (-330 : ℤ) ≤ 2 ^ (-1075 : ℤ) := by
    have hpow : (2 : ℚ) ^ 1075 ≤ 10 ^ 330 := by
      exact_mod_cast (by decide +kernel : 2 ^ 1075 ≤ 10 ^ 330)
    rw [zpow_neg, zpow_neg, zpow_ofNat, zpow_ofNat]
    exact inv_anti₀ (by positivity) hpow
  have hlarge : (2 : ℚ) ^ (1024 : ℤ) ≤ 10 ^ (310 : ℤ) := by
    rw [zpow_ofNat, zpow_ofNat]
    exact_mod_cast (by decide +kernel : 2 ^ 1024 ≤ 10 ^ 310)
  have hlt := (zpow_lt_zpow_iff_right₀ hten).mp (hsmall.trans_lt (hlow.trans_lt hhigh'))
  have hgt := (zpow_lt_zpow_iff_right₀ hten).mp (hlow'.trans_lt (hhigh.trans_le hlarge))
  omega

/-- A decimal in the rounding range of a double is read as that double. -/
theorem ofDecimal_eq (hfinite : x.isFinite) (hx : 0 < x.mantissa)
    (h : (ofDouble x).Holds (n * 10 ^ e)) : ofDecimal x.isNegative n e = some x := by
  have hn := pos_of_holds hx h
  obtain ⟨hlow, hhigh⟩ := size_bounds hfinite hx h
  have hratio : (n * 10 ^ e : ℚ) = (n * 10 ^ e.toNat : ℕ) / (10 ^ (-e).toNat : ℕ) := by
    rw [zpow_eq_div 10]
    push_cast
    ring
  rw [hratio] at h
  have hx' : Double.ofRatio x.isNegative (n * 10 ^ e.toNat) (10 ^ (-e).toNat) = x :=
    Double.ofRatio_eq hfinite hx (by positivity) (by positivity) h
  have hinfinite := (Double.isNaN_of_isFinite hfinite).2
  have hzero : (n = 0 || (decimalSize n + e : ℤ) < -330) = false := by simp [hn.ne', hlow]
  simp only [ofDecimal, hzero, Nat.pow_eq, hx', hinfinite, if_neg hhigh.not_gt]
  rfl

end Range

end FloatLiteral

/-! ### Writing the parts -/

/-- A float that would read back as an integer gets a point. -/
def marked (t : Text) : Text :=
  if t.any fun b => (".eEIN" : Text).contains b then t else t ++ ".0"

theorem marked_of_mem {t : Text} {b : UInt8} (hb : b ∈ t) (hmark : (".eEIN" : Text).contains b) :
    marked t = t := if_pos (List.any_eq_true.mpr ⟨b, hb, hmark⟩)

theorem marked_of_isDigits {t : Text} (h : t.IsDigits) : marked t = t ++ ".0" := by
  have hmarks : (".eEIN" : Text).all (!IntLiteral.isDigit ·) := by decide
  refine if_neg fun hany => ?_
  obtain ⟨b, hb, hmark⟩ := List.any_eq_true.mp hany
  have hdigit := List.all_eq_true.mp hmarks b (List.contains_iff_mem.mp hmark)
  rw [h b hb] at hdigit
  cases hdigit

theorem marked_signed (negative : Bool) (t : Text) :
    marked (signed negative t) = signed negative (marked t) := by
  cases negative with
  | false => rfl
  | true =>
    have hminus : (".eEIN" : Text).contains (Text.byte '-') = false := rfl
    simp only [marked, signed, if_true, List.any_cons, hminus, Bool.false_or]
    split_ifs
    · rfl
    · rfl

namespace Double

theorem listing_eq_marked (x : Double) : (Value.float x).listing = marked (x.text .value) := rfl

def leadingDigits (n : ℕ) : Text :=
  ((Text.ofNat n).reverse.dropWhile (· == Text.byte '0')).reverse

theorem exists_zeros {n : ℕ} (hn : 0 < n) : ∃ count,
    Text.ofNat n = leadingDigits n ++ zeros count ∧ leadingDigits n ≠ [] := by
  obtain ⟨ending, hending⟩ : ∃ ending,
      ending = (Text.ofNat n).reverse.takeWhile (· == Text.byte '0') := ⟨_, rfl⟩
  have hzero : ∀ b ∈ ending, b = Text.byte '0' := by
    intro b hb
    rw [hending] at hb
    simpa using List.mem_takeWhile_imp hb
  have hzeros : ending.reverse = zeros ending.length := by
    conv_lhs => rw [List.eq_replicate_of_mem hzero, List.reverse_replicate]
    rfl
  have hsplit : Text.ofNat n = leadingDigits n ++ zeros ending.length := by
    calc Text.ofNat n = ((Text.ofNat n).reverse.takeWhile (· == Text.byte '0') ++
          (Text.ofNat n).reverse.dropWhile (· == Text.byte '0')).reverse := by
          rw [List.takeWhile_append_dropWhile, List.reverse_reverse]
      _ = leadingDigits n ++ ending.reverse := by
          rw [List.reverse_append, ← hending]
          rfl
      _ = leadingDigits n ++ zeros ending.length := by rw [hzeros]
  refine ⟨ending.length, hsplit, fun hnil => ?_⟩
  rw [hnil, List.nil_append] at hsplit
  have hvalue := digitsValue_ofNat n
  rw [hsplit, digitsValue_zeros] at hvalue
  omega

open FloatLiteral

/-- The text is a decimal literal for the number, once it has a mark. -/
def IsWritten (t : Text) (q : ℚ) : Prop :=
  ∃ p : Parts, p.IsDecimal ∧ marked t = p.text ∧ (p.digits * 10 ^ p.power : ℚ) = q

section Writing

variable {digits : Text} {point : ℤ}

theorem isWritten_exponential (hne : digits ≠ []) (hdigits : digits.IsDigits)
    (hpoint : (point - 1).natAbs < 10000) : IsWritten (exponential digits point)
      (digitsValue 10 digits * 10 ^ (point - digits.length)) := by
  have hlength := List.length_pos_iff.mpr hne
  refine ⟨⟨digits.take 1, digits.drop 1, some (point - 1)⟩, ⟨?_, ?_, ?_, ?_, .inr rfl⟩, ?_, ?_⟩
  · simpa using hne
  · exact fun b hb => hdigits b (List.mem_of_mem_take hb)
  · exact fun b hb => hdigits b (List.mem_of_mem_drop hb)
  · rintro e ⟨⟩
    exact hpoint
  · rw [marked_of_mem (b := Text.byte 'e') (by simp [exponential]) rfl]
    simp [exponential, Parts.text, exponentText]
  · have hpower : point - 1 - ((digits.drop 1).length : ℤ) = point - digits.length := by
      rw [List.length_drop]
      omega
    simp only [Parts.digits, Parts.power, List.take_append_drop, Option.getD_some, hpower]

/-- Zeros between the point and the digits. -/
theorem isWritten_below (hne : digits ≠ []) (hdigits : digits.IsDigits) (hpoint : point ≤ 0) :
    IsWritten ("0." ++ zeros (-point).toNat ++ digits)
      (digitsValue 10 digits * 10 ^ (point - digits.length)) := by
  have hfraction := (isDigits_zeros (-point).toNat).append hdigits
  have hstart : Text.ofString "0." = [Text.byte '0', Text.byte '.'] := rfl
  refine ⟨⟨zeros 1, zeros (-point).toNat ++ digits, none⟩,
    ⟨by simp [zeros], isDigits_zeros 1, hfraction, by simp, .inl (by simp [hne])⟩, ?_, ?_⟩
  · rw [marked_of_mem (b := Text.byte '.') (by simp [hstart]) rfl]
    simp [Parts.text, hstart, hne, zeros]
  · have hpower : 0 - ((zeros (-point).toNat ++ digits).length : ℤ) = point - digits.length := by
      rw [List.length_append, length_zeros]
      omega
    simp only [Parts.digits, Parts.power, digitsValue_append, digitsValue_zeros, Option.getD_none,
      hpower, Nat.zero_mul, Nat.zero_add]

/-- Zeros between the digits and the point. -/
theorem isWritten_above (hne : digits ≠ []) (hdigits : digits.IsDigits)
    (hpoint : digits.length ≤ point) : IsWritten (digits ++ zeros (point - digits.length).toNat)
      (digitsValue 10 digits * 10 ^ (point - digits.length)) := by
  obtain ⟨count, hcount⟩ := Int.eq_ofNat_of_zero_le (sub_nonneg.mpr hpoint)
  rw [hcount, Int.toNat_natCast]
  have hwhole := hdigits.append (isDigits_zeros count)
  have hend : Text.ofString ".0" = [Text.byte '.', Text.byte '0'] := rfl
  refine ⟨⟨digits ++ zeros count, zeros 1, none⟩,
    ⟨by simp [hne], hwhole, isDigits_zeros 1, by simp, .inl (by simp [zeros])⟩, ?_, ?_⟩
  · rw [marked_of_isDigits hwhole]
    simp [Parts.text, zeros, hend]
  · have hvalue : digitsValue 10 (digits ++ zeros count ++ zeros 1) =
        digitsValue 10 digits * 10 ^ count * 10 := by
      rw [digitsValue_append, digitsValue_append, digitsValue_zeros, digitsValue_zeros,
        length_zeros, length_zeros]
      ring
    simp only [Parts.digits, Parts.power, hvalue, Option.getD_none]
    simp [zeros]

/-- The point between the digits. -/
theorem isWritten_between (hdigits : digits.IsDigits) (hpos : 0 < point)
    (hpoint : point < digits.length) :
    IsWritten (digits.take point.toNat ++ [Text.byte '.'] ++ digits.drop point.toNat)
      (digitsValue 10 digits * 10 ^ (point - digits.length)) := by
  have hfraction : digits.drop point.toNat ≠ [] := by
    refine List.ne_nil_of_length_pos ?_
    rw [List.length_drop]
    omega
  refine ⟨⟨digits.take point.toNat, digits.drop point.toNat, none⟩,
    ⟨?_, ?_, ?_, by simp, .inl hfraction⟩, ?_, ?_⟩
  · refine List.ne_nil_of_length_pos ?_
    rw [List.length_take]
    omega
  · exact fun b hb => hdigits b (List.mem_of_mem_take hb)
  · exact fun b hb => hdigits b (List.mem_of_mem_drop hb)
  · rw [marked_of_mem (b := Text.byte '.') (by simp) rfl]
    simp [Parts.text, List.isEmpty_eq_false_iff.mpr hfraction]
  · have hpower : 0 - ((digits.drop point.toNat).length : ℤ) = point - digits.length := by
      rw [List.length_drop]
      omega
    simp only [Parts.digits, Parts.power, List.take_append_drop, Option.getD_none, hpower]

theorem isWritten_positional (hne : digits ≠ []) (hdigits : digits.IsDigits) (point : ℤ) :
    IsWritten (positional digits point)
      (digitsValue 10 digits * 10 ^ (point - digits.length)) := by
  unfold positional
  split_ifs with hsmall hlarge
  · exact isWritten_below hne hdigits hsmall
  · exact isWritten_above hne hdigits hlarge
  · exact isWritten_between hdigits (not_le.mp hsmall) (not_le.mp hlarge)

end Writing

/-- The digits of a decimal up to the zeros at its end, and the place of the point in them. -/
theorem digitsValue_leadingDigits {d : Decimal} (hd : 0 < d.digits) :
    leadingDigits d.digits ≠ [] ∧ (leadingDigits d.digits).IsDigits ∧
      (digitsValue 10 (leadingDigits d.digits) * 10 ^ (d.power + (Text.ofNat d.digits).length -
        (leadingDigits d.digits).length) : ℚ) = d.value := by
  obtain ⟨count, hsplit, hne⟩ := exists_zeros hd
  have hlength : ((Text.ofNat d.digits).length : ℤ) = (leadingDigits d.digits).length + count := by
    conv_lhs => rw [hsplit]
    simp
  have hvalue : digitsValue 10 (leadingDigits d.digits) * 10 ^ count = d.digits := by
    conv_rhs => rw [← digitsValue_ofNat d.digits, hsplit]
    rw [digitsValue_append, digitsValue_zeros, length_zeros, Nat.add_zero]
  refine ⟨hne, fun b hb => isDigits_ofNat d.digits b (by rw [hsplit]; simp [hb]), ?_⟩
  have hpower : d.power + (Text.ofNat d.digits).length - (leadingDigits d.digits).length =
      count + d.power := by
    omega
  have hvalue' : (digitsValue 10 (leadingDigits d.digits) * 10 ^ count : ℚ) = d.digits := by
    exact_mod_cast hvalue
  rw [hpower, zpow_add₀ (by norm_num), zpow_natCast, ← mul_assoc, hvalue', Decimal.value]

section Text

variable {x : Double}

/-- A float is written with the digits of its shortest decimal. -/
theorem exists_text_eq_signed (hfinite : x.isFinite) (hzero : x.isZero = false) :
    ∃ t, x.text .value = signed x.isNegative t ∧ IsWritten t x.shortest.value := by
  have hx := mantissa_pos hzero
  have hpos := pos_of_holds hx (holds_shortest hx)
  obtain ⟨hne, hdigits, hvalue⟩ := digitsValue_leadingDigits hpos
  obtain ⟨hlow, hhigh⟩ := size_bounds hfinite hx (holds_shortest hx)
  have hsize : decimalSize x.shortest.digits = (Text.ofNat x.shortest.digits).length := by
    rw [decimalSize, if_neg hpos.ne', Text.ofNat, Text.ofDigits, List.length_map]
  obtain ⟨hnan, hinfinite⟩ := isNaN_of_isFinite hfinite
  have hsign (t : Text) : x.signText ++ t = signed x.isNegative t := by
    unfold signText signed
    split_ifs
    · rfl
    · rfl
  simp only [text, hnan, hinfinite, hzero, hsign, Bool.false_eq_true, if_false]
  refine ⟨_, rfl, ?_⟩
  rw [← hvalue]
  split_ifs
  · exact isWritten_exponential hne hdigits (by omega)
  · exact isWritten_positional hne hdigits _

theorem eq_ofFields {negative : Bool} {field fraction : ℕ} (hsign : x.isNegative = negative)
    (hfield : x.exponentField = field) (hfraction : x.fraction = fraction) :
    x = ofFields negative 0 (field * 2 ^ 52 + fraction) := by
  rw [← hsign, ← hfield, ← hfraction, x.ofFields_self]

/-- A finite float is listed as a decimal literal that is read as the float. -/
theorem exists_listing_eq (hfinite : x.isFinite) : ∃ p : Parts, p.IsDecimal ∧
    (Value.float x).listing = signed x.isNegative p.text ∧
      ofDecimal x.isNegative p.digits p.power = some x := by
  by_cases hzero : x.isZero
  · have hfields : x.exponentField = 0 ∧ x.fraction = 0 := by simpa [isZero] using hzero
    refine ⟨⟨zeros 1, zeros 1, none⟩, ⟨by simp [zeros], isDigits_zeros 1, isDigits_zeros 1, by simp,
      .inl (by simp [zeros])⟩, ?_, ?_⟩
    · cases hsign : x.isNegative with
      | false =>
        rw [eq_ofFields hsign hfields.1 hfields.2]
        decide
      | true =>
        rw [eq_ofFields hsign hfields.1 hfields.2]
        decide
    · have hx := eq_ofFields rfl hfields.1 hfields.2
      conv_rhs => rw [hx]
      rfl
  · rw [Bool.not_eq_true] at hzero
    have hx := mantissa_pos hzero
    have hholds := holds_shortest hx
    obtain ⟨t, htext, p, hp, hmarked, hvalue⟩ := exists_text_eq_signed hfinite hzero
    rw [← hvalue] at hholds
    refine ⟨p, hp, ?_, ofDecimal_eq hfinite hx hholds⟩
    rw [listing_eq_marked, htext, marked_signed, hmarked]

/-- An infinity is listed as a word. -/
theorem listing_infinite (hinfinite : x.isInfinite) :
    (Value.float x).listing = (if x.isNegative then "-Inf" else "+Inf") ∧
      Value.parse? (Value.float x).listing = some (.float x) := by
  have hfields : x.exponentField = 2047 ∧ x.fraction = 0 := by simpa [isInfinite] using hinfinite
  cases hsign : x.isNegative with
  | false =>
    rw [eq_ofFields hsign hfields.1 hfields.2]
    decide
  | true =>
    rw [eq_ofFields hsign hfields.1 hfields.2]
    decide

end Text

/-! ### What is read is a number -/

/-- Bits up to those of an infinity. -/
theorem isNaN_ofFields {bits : ℕ} (negative : Bool) (h : bits ≤ 2047 * 2 ^ 52) :
    (ofFields negative 0 bits).isNaN = false := by
  obtain ⟨-, hfield, hfraction⟩ := fields_ofFields negative (show bits < 2 ^ 63 by omega)
  have hfields : (ofFields negative 0 bits).exponentField = 2047 →
      (ofFields negative 0 bits).fraction = 0 := by
    rw [hfield, hfraction]
    omega
  simpa [isNaN] using hfields

theorem isNaN_zero (negative : Bool) : (zero negative).isNaN = false :=
  isNaN_ofFields negative (Nat.zero_le _)

theorem isNaN_infinity (negative : Bool) : (infinity negative).isNaN = false := by
  have hfields : infinity negative = ofFields negative 0 (2047 * 2 ^ 52) := by
    simp [infinity, ofFields]
  rw [hfields]
  exact isNaN_ofFields negative le_rfl

theorem isNaN_ofRatio (negative : Bool) (num den : ℕ) :
    (ofRatio negative num den).isNaN = false := by
  unfold ofRatio
  dsimp only
  split_ifs with hnum _ hlarge hlarge
  · exact isNaN_zero negative
  · exact isNaN_infinity negative
  · exact isNaN_ofFields negative (not_le.mp hlarge).le
  · exact isNaN_infinity negative
  · exact isNaN_ofFields negative (not_le.mp hlarge).le

end Double

namespace FloatLiteral

variable {negative : Bool} {n : ℕ} {e : ℤ} {x : Double} {t : Text}

theorem isNaN_of_ofDecimal (h : ofDecimal negative n e = some x) : x.isNaN = false := by
  unfold ofDecimal at h
  dsimp only at h
  split_ifs at h
  · cases h
    exact Double.isNaN_zero negative
  · cases h
    exact Double.isNaN_ofRatio ..

theorem isNaN_of_ofBinary (h : ofBinary negative n e = some x) : x.isNaN = false := by
  unfold ofBinary at h
  dsimp only at h
  split_ifs at h
  · cases h
    exact Double.isNaN_zero negative
  · cases h
    exact Double.isNaN_ofRatio ..

theorem isNaN_of_readNumber (h : readNumber t = some x) : x.isNaN = false := by
  unfold readNumber at h
  dsimp only at h
  obtain ⟨parts, -, hvalue⟩ := Option.bind_eq_some_iff.mp h
  split_ifs at hvalue
  · exact isNaN_of_ofBinary hvalue
  · exact isNaN_of_ofDecimal hvalue

/-- Only the word for it is read as what is no number. -/
theorem isNaN_of_read (h : read t = some x)
    (hnan : t.map IntLiteral.lowerByte ≠ Text.ofString "nan") : x.isNaN = false := by
  unfold read at h
  cases hword : readWord t with
  | none =>
    rw [hword] at h
    exact isNaN_of_readNumber h
  | some y =>
    rw [hword] at h
    cases h
    unfold readWord at hword
    dsimp only at hword
    split_ifs at hword
    rw [← Option.some.inj hword]
    exact Double.isNaN_infinity _

end FloatLiteral

namespace Value

def isNumber : Value → Bool
  | .int _ => true
  | .float x => !x.isNaN

/-- A value reads back from its listing, with its kind. The smallest integer does not. -/
theorem parse?_listing {v : Value} (hv : v.isNumber) (hmin : v ≠ .int Int64.minValue) :
    parse? v.listing = some v := by
  cases v with
  | int v => exact parse?_ofInt fun heq => hmin (congrArg Value.int heq)
  | float x =>
    cases hfinite : x.isFinite with
    | true =>
      obtain ⟨p, hp, hlisting, hread⟩ := Double.exists_listing_eq hfinite
      rw [hlisting, hp.parse?_text, hread]
      rfl
    | false =>
      have hnan : x.isNaN = false := by simpa [isNumber] using hv
      exact (Double.listing_infinite (Double.isInfinite_of_isNaN hfinite hnan)).2

theorem read_of_parse? {t : Text} {x : Double} (h : parse? t = some (.float x)) :
    FloatLiteral.read t = some x := by
  unfold parse? at h
  dsimp only at h
  split at h
  · cases h
  · split at h
    · cases h
    · simpa using h

end Value

end Stack6502
