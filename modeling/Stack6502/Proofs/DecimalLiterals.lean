import Stack6502.Proofs.Numerals

/-!
# Decimal literals

A decimal literal is written as whole digits, then a point and a fraction, then an exponent. Read
again, it has the same parts, and its value is formed from all its digits and one power of ten.
-/
namespace Stack6502

open IntLiteral

namespace FloatLiteral

/-! ### The parts of a literal -/

def exponentText (e : Int) : Text :=
  Text.byte (if e < 0 then '-' else '+') ::
    Text.padLeft 2 (Text.byte '0') (Text.ofNat e.natAbs)

namespace Parts

def text (p : Parts) : Text :=
  p.whole ++ ((if p.fraction.isEmpty then [] else Text.byte '.' :: p.fraction) ++
    match p.exponent with
    | none => []
    | some e => Text.byte 'e' :: exponentText e)

def digits (p : Parts) : Nat := digitsValue 10 (p.whole ++ p.fraction)

def power (p : Parts) : Int := p.exponent.getD 0 - p.fraction.length

structure IsDecimal (p : Parts) : Prop where
  whole_ne : p.whole ≠ []
  whole : p.whole.IsDigits
  fraction : p.fraction.IsDigits
  exponent_lt : ∀ e ∈ p.exponent, e.natAbs < 10000
  mark : p.fraction ≠ [] ∨ p.exponent.isSome

end Parts

/-! ### Reading the parts -/

theorem foldl_exponent_of_isDigits (acc : Nat) {t : Text} (ht : t.IsDigits)
    (h : acc * 10 ^ t.length + digitsValue 10 t < 10000) :
    t.foldl (fun e b => if b == underscore then e
      else if e < 10000 then e * 10 + (b.toNat - 48) else e) acc =
      acc * 10 ^ t.length + digitsValue 10 t := by
  induction t generalizing acc with
  | nil => simp [digitsValue]
  | cons b t ih =>
    obtain ⟨hb, ht⟩ := List.forall_mem_cons.mp ht
    rw [add_digitsValue_cons hb] at h ⊢
    have hsmall : acc < 10000 := by
      have hpos : 0 < 10 ^ t.length := by positivity
      nlinarith
    have hmark : (b == underscore) = false := beq_false_of_ne (ne_of_isDigit hb rfl)
    rw [List.foldl_cons, hmark, if_neg Bool.false_ne_true, if_pos hsmall]
    exact ih _ ht h

theorem padLeft_eq_zeros (t : Text) :
    Text.padLeft 2 (Text.byte '0') t = Double.zeros (2 - t.length) ++ t := rfl

theorem readExponent_cons {sign : UInt8} {digits : Text}
    (hsign : sign = Text.byte '-' ∨ sign = Text.byte '+') (hne : digits ≠ [])
    (hall : digits.IsDigits) : readExponent (sign :: digits) =
      some (if sign = Text.byte '-' then -(exponentOf digits : Int) else exponentOf digits) := by
  have hdrop : dropSign (sign :: digits) = digits := by
    rcases hsign with rfl | rfl
    · rfl
    · rfl
  have hcheck : digits.all fun b => isDigit b || b == underscore := by
    rw [List.all_eq_true]
    intro b hb
    rw [hall b hb, Bool.true_or]
  simp only [readExponent, hdrop]
  cases digits with
  | nil => exact absurd rfl hne
  | cons b t =>
    have hb : isDigit b := hall b (by simp)
    simp only [hb, hcheck, Bool.and_self, if_true, List.head?_cons, beq_iff_eq, Option.some_inj]

theorem readExponent_exponentText {e : Int} (h : e.natAbs < 10000) :
    readExponent (exponentText e) = some e := by
  obtain ⟨digits, hdigits⟩ : ∃ digits,
      digits = Text.padLeft 2 (Text.byte '0') (Text.ofNat e.natAbs) := ⟨_, rfl⟩
  have hall : digits.IsDigits := by
    rw [hdigits, padLeft_eq_zeros]
    exact (isDigits_zeros _).append (isDigits_ofNat _)
  have hne : digits ≠ [] := by
    rw [hdigits, padLeft_eq_zeros]
    exact List.append_ne_nil_of_right_ne_nil _ (ofNat_ne_nil _)
  have hvalue : digitsValue 10 digits = e.natAbs := by
    rw [hdigits, padLeft_eq_zeros, digitsValue_append, digitsValue_zeros, digitsValue_ofNat]
    omega
  have hexponent : exponentOf digits = e.natAbs := by
    have hfold := foldl_exponent_of_isDigits 0 hall (by omega)
    rw [exponentOf, hfold, hvalue]
    omega
  rw [exponentText, ← hdigits]
  by_cases hneg : e < 0
  · rw [if_pos hneg, readExponent_cons (.inl rfl) hne hall, if_pos rfl, hexponent]
    congr 1
    omega
  · have hplus : Text.byte '+' ≠ Text.byte '-' := by decide
    rw [if_neg hneg, readExponent_cons (.inr rfl) hne hall, if_neg hplus, hexponent]
    congr 1
    omega

/-- Digits up to a byte that is none. -/
theorem takeWhile_dropWhile_digits {t : Text} (ht : t.IsDigits) (rest : Text)
    (hrest : ∀ b ∈ rest.head?, isDigit b = false ∧ b ≠ underscore) :
    (t ++ rest).takeWhile (fun b => isDigitOf false b || b == underscore) = t ∧
      (t ++ rest).dropWhile (fun b => isDigitOf false b || b == underscore) = rest := by
  have hpos : ∀ b ∈ t, (isDigitOf false b || b == underscore) = true := by
    intro b hb
    simp [isDigitOf, ht b hb]
  rw [List.takeWhile_append_of_pos hpos, List.dropWhile_append_of_pos hpos]
  cases rest with
  | nil => simp
  | cons b rest =>
    obtain ⟨hdigit, hunderscore⟩ := hrest b rfl
    simp [isDigitOf, hdigit, hunderscore]

theorem filter_underscore {t : Text} (ht : t.IsDigits) : t.filter (· != underscore) = t := by
  rw [List.filter_eq_self]
  intro b hb
  simpa using ne_of_isDigit (ht b hb) rfl

theorem head?_mark {mark : UInt8} {t : Text} (hdigit : isDigit mark = false)
    (hunderscore : mark ≠ underscore) :
    ∀ b ∈ (mark :: t).head?, isDigit b = false ∧ b ≠ underscore := by
  rintro b ⟨⟩
  exact ⟨hdigit, hunderscore⟩

theorem isNumeric_exponentText (e : Int) : ∀ b ∈ exponentText e, isNumeric b := by
  refine List.forall_mem_cons.mpr ⟨?_, fun b hb => ?_⟩
  · split <;> rfl
  · rw [padLeft_eq_zeros] at hb
    exact isNumeric_of_isDigit ((isDigits_zeros _).append (isDigits_ofNat _) b hb)

namespace Parts.IsDecimal

variable {p : Parts}

/-- The parts of a literal are found again. -/
theorem readParts_text (h : p.IsDecimal) : readParts false p.text = some p := by
  obtain ⟨whole, fraction, exponent⟩ := p
  obtain ⟨hne, hwhole, hfraction, hlt, hmark⟩ := h
  dsimp only at hne hwhole hfraction hlt hmark
  have hwhole' := filter_underscore hwhole
  have hfraction' := filter_underscore hfraction
  have he : (lowerByte (Text.byte 'e') == Text.byte 'e') = true := rfl
  by_cases hpoint : fraction = []
  · obtain ⟨e, rfl⟩ := Option.isSome_iff_exists.mp (hmark.resolve_left fun hne => hne hpoint)
    have hexponent := readExponent_exponentText (hlt e rfl)
    obtain ⟨htake, hdrop⟩ := takeWhile_dropWhile_digits hwhole (Text.byte 'e' :: exponentText e)
      (head?_mark rfl (by decide))
    have hnot : (Text.byte 'e' == Text.byte '.') = false := rfl
    simp [readParts, Parts.text, hpoint, htake, hdrop, hwhole', hnot, he, hexponent, hne]
  · cases exponent with
    | none =>
      obtain ⟨htake, hdrop⟩ := takeWhile_dropWhile_digits hwhole (Text.byte '.' :: fraction)
        (head?_mark rfl (by decide))
      obtain ⟨htake', hdrop'⟩ := takeWhile_dropWhile_digits hfraction [] (by simp)
      rw [List.append_nil] at htake' hdrop'
      simp [readParts, Parts.text, hpoint, htake, hdrop, htake', hdrop', hwhole', hfraction', hne]
    | some e =>
      have hexponent := readExponent_exponentText (hlt e rfl)
      obtain ⟨htake, hdrop⟩ := takeWhile_dropWhile_digits hwhole
        (Text.byte '.' :: (fraction ++ Text.byte 'e' :: exponentText e))
        (head?_mark rfl (by decide))
      obtain ⟨htake', hdrop'⟩ := takeWhile_dropWhile_digits hfraction
        (Text.byte 'e' :: exponentText e) (head?_mark rfl (by decide))
      simp [readParts, Parts.text, hpoint, htake, hdrop, htake', hdrop', hwhole', hfraction', hne,
        he, hexponent]

theorem isNumeric_text (h : p.IsDecimal) : ∀ b ∈ p.text, isNumeric b := by
  have hdigits {t : Text} (ht : t.IsDigits) : ∀ b ∈ t, isNumeric b := fun b hb =>
    isNumeric_of_isDigit (ht b hb)
  rw [Parts.text, List.forall_mem_append, List.forall_mem_append]
  refine ⟨hdigits h.whole, ?_, ?_⟩
  · split
    · simp
    · exact List.forall_mem_cons.mpr ⟨rfl, hdigits h.fraction⟩
  · split
    · simp
    · exact List.forall_mem_cons.mpr ⟨rfl, isNumeric_exponentText _⟩

theorem mark_mem_text (h : p.IsDecimal) : Text.byte '.' ∈ p.text ∨ Text.byte 'e' ∈ p.text := by
  simp only [Parts.text, List.mem_append]
  rcases h.mark with hfraction | hexponent
  · simp [hfraction]
  · obtain ⟨e, he⟩ := Option.isSome_iff_exists.mp hexponent
    simp [he]

theorem exists_text_eq_cons (h : p.IsDecimal) : ∃ b t, p.text = b :: t ∧ isDigit b := by
  obtain ⟨b, t, ht⟩ := List.exists_cons_of_ne_nil h.whole_ne
  exact ⟨b, _, by rw [Parts.text, ht, List.cons_append], h.whole b (by simp [ht])⟩

end Parts.IsDecimal

/-! ### Reading the number -/

section Signed

variable {b : UInt8}

theorem dropSign_signed (hb : isDigit b) (negative : Bool) (t : Text) :
    dropSign (signed negative (b :: t)) = b :: t := by
  have hminus : b ≠ Text.byte '-' := ne_of_isDigit hb rfl
  have hplus : b ≠ Text.byte '+' := ne_of_isDigit hb rfl
  cases negative with
  | false => simp [signed, dropSign, hminus, hplus]
  | true => simp [signed, dropSign]

theorem head?_signed (hb : isDigit b) (negative : Bool) (t : Text) :
    ((signed negative (b :: t)).head? == some (Text.byte '-')) = negative := by
  have hminus : b ≠ Text.byte '-' := ne_of_isDigit hb rfl
  cases negative with
  | false => simp [signed, hminus]
  | true => simp [signed]

/-- A number is no word. -/
theorem readWord_signed (hb : isDigit b) (negative : Bool) (t : Text) :
    readWord (signed negative (b :: t)) = none := by
  have hlower := lowerByte_of_isNumeric (isNumeric_of_isDigit hb)
  have hne {w : Text} (hw : w.head?.all (!isDigit ·)) : lowerByte b :: t.map lowerByte ≠ w := by
    rintro rfl
    have hc : isDigit (lowerByte b) = false := by simpa using hw
    rw [hlower, hb] at hc
    cases hc
  have hnan : (signed negative (b :: t)).map lowerByte ≠ Text.ofString "nan" := by
    cases negative with
    | false => exact hne (by decide)
    | true =>
      intro heq
      have hhead : some (lowerByte (Text.byte '-')) = some (Text.byte 'n') :=
        congrArg List.head? heq
      exact absurd hhead (by decide)
  have hinf := hne (w := Text.ofString "inf") (by decide)
  have hinfinity := hne (w := Text.ofString "infinity") (by decide)
  simp only [readWord, dropSign_signed hb, List.map_cons, hnan, if_false,
    hinf, hinfinity, decide_false, Bool.or_self, Bool.false_eq_true]

end Signed

namespace Parts.IsDecimal

variable {p : Parts}

theorem read_text (h : p.IsDecimal) (negative : Bool) :
    FloatLiteral.read (signed negative p.text) = ofDecimal negative p.digits p.power := by
  obtain ⟨b, t, ht, hb⟩ := h.exists_text_eq_cons
  have hnumeric := h.isNumeric_text
  have hparts := h.readParts_text
  rw [ht] at hnumeric hparts ⊢
  have hunderscore := underscore_notMem_of_isNumeric (isNumeric_signed negative hnumeric)
  rw [FloatLiteral.read, readWord_signed hb]
  -- A second byte could be the mark of base sixteen.
  rcases t with - | ⟨mark, - | ⟨c, t⟩⟩
  · simp [readNumber, dropSign_signed hb, head?_signed hb, hparts, hunderscore, digits, power]
  · simp [readNumber, dropSign_signed hb, head?_signed hb, hparts, hunderscore, digits, power]
  · have hmark : isNumeric mark := hnumeric mark (by simp)
    have hhex : (lowerByte mark == Text.byte 'x') = false := by
      rw [lowerByte_of_isNumeric hmark]
      exact beq_false_of_ne (ne_of_isNumeric hmark rfl)
    simp [readNumber, dropSign_signed hb, head?_signed hb, hparts, hunderscore, hhex, digits, power]

/-- A literal with a point or an exponent is read as a float. -/
theorem parse?_text (h : p.IsDecimal) (negative : Bool) : Value.parse? (signed negative p.text) =
    (ofDecimal negative p.digits p.power).map .float := by
  obtain ⟨fault, hfault⟩ := exists_readNat_error h.isNumeric_text h.mark_mem_text
  have hread := h.read_text negative
  obtain ⟨b, t, ht, hb⟩ := h.exists_text_eq_cons
  rw [ht] at hfault hread ⊢
  have hint : readInt none (b :: t) = .error fault := by
    rw [readInt_of_isDigit hb, hfault]
    rfl
  rw [parse?_signed negative hb, hint, ← hread]

end Parts.IsDecimal

end FloatLiteral

end Stack6502
