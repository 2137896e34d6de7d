import Mathlib.Tactic.Linarith
import Mathlib.Tactic.Ring
import Stack6502.Number.FloatLiteral
import Stack6502.Number.FloatText
import Stack6502.Proofs.EmittedLines

/-!
# Numerals

Numbers are written in decimal digits without needless zeros in front. An integer literal of that
form has the number as its value, while one with a point or an exponent in it has none.
-/
namespace Stack6502

open IntLiteral FloatLiteral

/-! ### Digits -/

section Digits

variable {b : UInt8}

theorem isDigit_iff : isDigit b ↔ 48 ≤ b.toNat ∧ b.toNat ≤ 57 := by
  simp [isDigit, UInt8.le_iff_toNat_le, show (Text.byte '0').toNat = 48 from rfl,
    show (Text.byte '9').toNat = 57 from rfl]

theorem digit?_of_isDigit (h : isDigit b) : digit? b = some (b.toNat - 48) := by
  simp [digit?, h]

theorem ne_of_isDigit {mark : UInt8} (h : isDigit b) (hmark : isDigit mark = false) : b ≠ mark := by
  rintro rfl
  simp [h] at hmark

def Text.IsDigits (t : Text) : Prop := ∀ b ∈ t, isDigit b

theorem Text.IsDigits.append {t u : Text} (ht : t.IsDigits) (hu : u.IsDigits) :
    (t ++ u).IsDigits := List.forall_mem_append.mpr ⟨ht, hu⟩

theorem isDigits_zeros (n : Nat) : (Double.zeros n).IsDigits := by
  intro b hb
  rw [List.eq_of_mem_replicate hb]
  rfl

@[simp] theorem length_zeros (n : Nat) : (Double.zeros n).length = n := List.length_replicate ..

theorem isDigits_ofNat (n : Nat) : (Text.ofNat n).IsDigits :=
  fun _ hb => isDigit_iff.mpr (Text.toNat_of_mem_ofNat hb)

theorem ofNat_ne_nil (n : Nat) : Text.ofNat n ≠ [] := by
  simp [Text.ofNat, Text.ofDigits]

end Digits

/-! ### The value of digits -/

section Value

variable {t : Text}

theorem digitsValue_append_byte (base : Nat) (t : Text) (b : UInt8) :
    digitsValue base (t ++ [b]) = digitsValue base t * base + (digit? b).getD 0 := by
  simp [digitsValue, List.foldl_append]

theorem digitsValue_append (base : Nat) (t u : Text) :
    digitsValue base (t ++ u) = digitsValue base t * base ^ u.length + digitsValue base u := by
  induction u using List.reverseRecOn with
  | nil => simp [digitsValue]
  | append_singleton u b ih =>
    rw [← List.append_assoc, digitsValue_append_byte, ih, digitsValue_append_byte,
      List.length_append, List.length_singleton, pow_succ]
    ring

theorem digitsValue_zeros (base n : Nat) : digitsValue base (Double.zeros n) = 0 := by
  induction n with
  | zero => rfl
  | succ n ih =>
    rw [Double.zeros, List.replicate_succ', digitsValue_append_byte, ← Double.zeros, ih,
      Nat.zero_mul]
    rfl

theorem toNat_byte_digitChar {d : Nat} (h : d < 10) : (Text.byte d.digitChar).toNat = 48 + d := by
  have hlt : 48 + d < 256 := by omega
  rw [Text.byte, Nat.toNat_digitChar_of_lt_ten h]
  exact UInt8.toNat_ofNat_of_lt' hlt

theorem digit?_byte_digitChar {d : Nat} (h : d < 10) :
    digit? (Text.byte d.digitChar) = some d := by
  have hbyte := toNat_byte_digitChar h
  rw [digit?_of_isDigit (isDigit_iff.mpr (by omega)), hbyte]
  congr 1
  omega

theorem ofNat_of_lt {n : Nat} (h : n < 10) : Text.ofNat n = [Text.byte n.digitChar] := by
  rw [Text.ofNat, Text.ofDigits, Nat.toDigits_of_lt_base h]
  rfl

theorem ofNat_of_le {n : Nat} (h : 10 ≤ n) :
    Text.ofNat n = Text.ofNat (n / 10) ++ [Text.byte (n % 10).digitChar] := by
  rw [Text.ofNat, Text.ofDigits, Nat.toDigits_of_base_le (by decide) h, List.map_append]
  rfl

theorem digitsValue_ofNat (n : Nat) : digitsValue 10 (Text.ofNat n) = n := by
  induction n using Nat.strong_induction_on with
  | _ n ih =>
    rcases Nat.lt_or_ge n 10 with h | h
    · rw [ofNat_of_lt h]
      simp [digitsValue, digit?_byte_digitChar h]
    · rw [ofNat_of_le h, digitsValue_append_byte, ih (n / 10) (by omega),
        digit?_byte_digitChar (by omega), Option.getD_some]
      omega

/-- A positive number starts with another digit than zero. -/
theorem head?_ofNat_ne {n : Nat} (h : 0 < n) : (Text.ofNat n).head? ≠ some (Text.byte '0') := by
  induction n using Nat.strong_induction_on with
  | _ n ih =>
    rcases Nat.lt_or_ge n 10 with hlt | hle
    · rw [ofNat_of_lt hlt, List.head?_cons, ne_eq, Option.some_inj, ← UInt8.toNat_inj,
        toNat_byte_digitChar hlt, show (Text.byte '0').toNat = 48 from rfl]
      omega
    · rw [ofNat_of_le hle, List.head?_append_of_ne_nil _ (ofNat_ne_nil _)]
      exact ih (n / 10) (by omega) (by omega)

/-- Digits from the left, one after another. -/
theorem digitsValue_cons {b : UInt8} (base : Nat) (t : Text) :
    digitsValue base (b :: t) = (digit? b).getD 0 * base ^ t.length + digitsValue base t := by
  rw [← List.singleton_append, digitsValue_append]
  simp [digitsValue]

/-- The first digit joins those before it. -/
theorem add_digitsValue_cons {b : UInt8} (hb : isDigit b) (acc : Nat) (t : Text) :
    acc * 10 ^ (b :: t).length + digitsValue 10 (b :: t) =
      (acc * 10 + (b.toNat - 48)) * 10 ^ t.length + digitsValue 10 t := by
  rw [digitsValue_cons, digit?_of_isDigit hb, Option.getD_some, List.length_cons, pow_succ]
  ring

end Value

/-! ### Integer literals -/

section Literals

variable {t : Text}

theorem readDigits_of_isDigits {acc : Nat} (ht : t.IsDigits)
    (h : acc * 10 ^ t.length + digitsValue 10 t < 2 ^ 64) :
    readDigits 10 true acc t = .ok (acc * 10 ^ t.length + digitsValue 10 t) := by
  induction t generalizing acc with
  | nil => simp [readDigits, digitsValue]
  | cons b t ih =>
    obtain ⟨hb, ht⟩ := List.forall_mem_cons.mp ht
    rw [add_digitsValue_cons hb] at h ⊢
    have hlt : b.toNat - 48 < 10 := by
      have := isDigit_iff.mp hb
      omega
    have hsmall : acc * 10 + (b.toNat - 48) < 2 ^ 64 := by
      have hpos : 0 < 10 ^ t.length := by positivity
      nlinarith
    have hmark : (b == underscore) = false := beq_false_of_ne (ne_of_isDigit hb rfl)
    rw [readDigits, hmark, Bool.and_false, if_neg Bool.false_ne_true, digit?_of_isDigit hb]
    simp only [Nat.pow_eq, if_neg hlt.not_ge, if_neg hsmall.not_ge]
    exact ih ht h

/-- Digits stop at a byte that is none in their base. -/
theorem exists_readDigits_error {base : Nat} (acc : Nat) {mark : UInt8} (hmem : mark ∈ t)
    (hmark : mark ≠ underscore) (hdigit : ∀ d ∈ digit? mark, base ≤ d) :
    ∃ fault, readDigits base true acc t = .error fault := by
  fun_induction readDigits base true acc t with
  | case1 => cases hmem
  | case2 acc b t hb ih =>
    refine ih ((List.mem_cons.mp hmem).resolve_left ?_)
    rintro rfl
    exact hmark (by simpa using hb)
  | case3 acc b t => exact ⟨_, rfl⟩
  | case4 acc b t => exact ⟨_, rfl⟩
  | case5 acc b t => exact ⟨_, rfl⟩
  | case6 acc b t hb d hd hbase hlarge ih =>
    refine ih ((List.mem_cons.mp hmem).resolve_left ?_)
    rintro rfl
    exact hbase (hdigit d hd)

def isNumeric (b : UInt8) : Bool := isDigit b || (".e+-" : Text).contains b

theorem isNumeric_of_isDigit {b : UInt8} (h : isDigit b) : isNumeric b := by
  rw [isNumeric, h, Bool.true_or]

theorem isNumeric_iff {b : UInt8} : isNumeric b ↔ 48 ≤ b.toNat ∧ b.toNat ≤ 57 ∨
    b.toNat = 46 ∨ b.toNat = 101 ∨ b.toNat = 43 ∨ b.toNat = 45 := by
  rw [isNumeric, Bool.or_eq_true, isDigit_iff, List.contains_iff_mem]
  simp [show Text.ofString ".e+-" = [46, 101, 43, 45] from rfl, ← UInt8.toNat_inj]

/-- What is no capital letter is in lower case. -/
theorem lowerByte_eq_self {b : UInt8} (h : b.toNat < 65 ∨ 90 < b.toNat) : lowerByte b = b := by
  rw [lowerByte, if_neg]
  simp only [Bool.and_eq_true, decide_eq_true_eq, UInt8.le_iff_toNat_le,
    show (Text.byte 'A').toNat = 65 from rfl, show (Text.byte 'Z').toNat = 90 from rfl]
  omega

theorem lowerByte_of_isNumeric {b : UInt8} (h : isNumeric b) : lowerByte b = b := by
  have hrange := isNumeric_iff.mp h
  exact lowerByte_eq_self (by omega)

theorem ne_of_isNumeric {b mark : UInt8} (h : isNumeric b) (hmark : isNumeric mark = false) :
    b ≠ mark := by
  rintro rfl
  simp [h] at hmark

/-- A decimal number names no base, but a zero in front is taken for one. -/
theorem splitBase_of_isNumeric (h : ∀ b ∈ t, isNumeric b) :
    splitBase t = (10, t) ∨ ∃ rest, t = Text.byte '0' :: rest ∧ splitBase t = (8, rest) := by
  unfold splitBase
  split
  · next zero mark d rest =>
    by_cases hzero : zero = Text.byte '0'
    · have hmark : isNumeric mark := h mark (by simp)
      have hbase (c : Char) (hc : isNumeric (Text.byte c) = false) :
          (lowerByte mark == Text.byte c) = false := by
        rw [lowerByte_of_isNumeric hmark]
        exact beq_false_of_ne (ne_of_isNumeric hmark hc)
      refine .inr ⟨_, by rw [hzero], ?_⟩
      simp [hzero, hbase 'b' rfl, hbase 'o' rfl, hbase 'x' rfl]
    · left
      simp [hzero]
  · next zero rest _ =>
    by_cases hzero : zero = Text.byte '0'
    · refine .inr ⟨rest, by rw [hzero], ?_⟩
      simp [hzero]
    · left
      simp [hzero]
  · exact .inl rfl

theorem underscore_notMem_of_isNumeric (h : ∀ b ∈ t, isNumeric b) : underscore ∉ t :=
  fun hmem => ne_of_isNumeric (h _ hmem) rfl rfl

theorem readNat_ofNat {n : Nat} (h : n < 2 ^ 64) : readNat none (Text.ofNat n) = .ok n := by
  rcases Nat.eq_zero_or_pos n with rfl | hpos
  · rfl
  · have hdigits := isDigits_ofNat n
    have hnumeric : ∀ b ∈ Text.ofNat n, isNumeric b := fun b hb =>
      isNumeric_of_isDigit (hdigits b hb)
    have hsplit : splitBase (Text.ofNat n) = (10, Text.ofNat n) := by
      refine (splitBase_of_isNumeric hnumeric).resolve_right ?_
      rintro ⟨rest, hzero, -⟩
      exact head?_ofNat_ne hpos (by rw [hzero, List.head?_cons])
    have hread : readDigits 10 true 0 (Text.ofNat n) = .ok n := by
      have hvalue := digitsValue_ofNat n
      rw [readDigits_of_isDigits hdigits (by omega), hvalue, Nat.zero_mul, Nat.zero_add]
    have hne : (Text.ofNat n).isEmpty = false := by simpa using ofNat_ne_nil n
    have hunderscore := underscore_notMem_of_isNumeric hnumeric
    simp [readNat, hne, hsplit, hread, hunderscore, bind, Except.bind]

/-- A number with a point or an exponent is no integer. -/
theorem exists_readNat_error (h : ∀ b ∈ t, isNumeric b)
    (hmark : Text.byte '.' ∈ t ∨ Text.byte 'e' ∈ t) : ∃ fault, readNat none t = .error fault := by
  obtain ⟨mark, hmem, hunderscore, hzero, hdigit⟩ : ∃ mark ∈ t, mark ≠ underscore ∧
      mark ≠ Text.byte '0' ∧ ∀ d ∈ digit? mark, 10 ≤ d := by
    rcases hmark with hmem | hmem
    · exact ⟨_, hmem, by decide, by decide, by decide⟩
    · exact ⟨_, hmem, by decide, by decide, by decide⟩
  have hne : t.isEmpty = false := by
    rw [List.isEmpty_eq_false_iff]
    exact List.ne_nil_of_mem hmem
  rcases splitBase_of_isNumeric h with hsplit | ⟨rest, rfl, hsplit⟩
  · obtain ⟨fault, hfault⟩ := exists_readDigits_error 0 hmem hunderscore hdigit
    refine ⟨fault, ?_⟩
    simp [readNat, hne, hsplit, hfault, bind, Except.bind]
  · have hrest : mark ∈ rest := (List.mem_cons.mp hmem).resolve_left hzero
    obtain ⟨fault, hfault⟩ := exists_readDigits_error 0 hrest hunderscore
      fun d hd => (by decide : 8 ≤ 10).trans (hdigit d hd)
    refine ⟨fault, ?_⟩
    simp [readNat, hne, hsplit, hfault, bind, Except.bind]

/-- Without a sign in front a literal is read as it stands. -/
theorem readInt_of_isDigit {b : UInt8} (hb : isDigit b) (t : Text) :
    readInt none (b :: t) = readNat none (b :: t) >>= fun n =>
      if 2 ^ 63 ≤ n then .error .outOfRange else .ok (Int64.ofNat n) := by
  have hminus : b ≠ Text.byte '-' := ne_of_isDigit hb rfl
  have hplus : b ≠ Text.byte '+' := ne_of_isDigit hb rfl
  simp [readInt, dropSign, hminus, hplus]

end Literals

/-! ### Values -/

def signed (negative : Bool) (t : Text) : Text := if negative then Text.byte '-' :: t else t

section Signed

variable {b : UInt8} {t : Text} (negative : Bool)

theorem isNumeric_signed (h : ∀ c ∈ t, isNumeric c) : ∀ c ∈ signed negative t, isNumeric c := by
  cases negative with
  | false => exact h
  | true => exact List.forall_mem_cons.mpr ⟨rfl, h⟩

/-- The sign is no part of the integer, but of the float. -/
theorem parse?_signed (hb : isDigit b) : Value.parse? (signed negative (b :: t)) =
    match readInt none (b :: t) with
    | .ok v => some (.int (if negative then -v else v))
    | .error _ => (FloatLiteral.read (signed negative (b :: t))).map .float := by
  have hminus : b ≠ Text.byte '-' := ne_of_isDigit hb rfl
  have hsixteen : b ≠ Text.byte '$' := ne_of_isDigit hb rfl
  have htwo : b ≠ Text.byte '%' := ne_of_isDigit hb rfl
  cases negative with
  | false =>
    cases h : readInt none (b :: t) <;>
      simp [Value.parse?, signed, Value.splitMark, hminus, hsixteen, htwo, h]
  | true =>
    cases h : readInt none (b :: t) <;>
      simp [Value.parse?, signed, Value.splitMark, hsixteen, htwo, h]

end Signed

theorem ofInt_eq_signed (i : Int) : Text.ofInt i = signed (i < 0) (Text.ofNat i.natAbs) := by
  cases i with
  | ofNat n => rfl
  | negSucc n => simp [Text.ofInt, signed, Int.negSucc_lt_zero]

theorem exists_ofNat_eq_cons (n : Nat) : ∃ b t, Text.ofNat n = b :: t ∧ isDigit b := by
  obtain ⟨b, t, ht⟩ := List.exists_cons_of_ne_nil (ofNat_ne_nil n)
  exact ⟨b, t, ht, isDigits_ofNat n b (by simp [ht])⟩

/-- An integer reads back from its text. The smallest one does not, as its digits alone are beyond
the largest. -/
theorem parse?_ofInt {v : Int64} (hv : v ≠ Int64.minValue) :
    Value.parse? (Text.ofInt v.toInt) = some (.int v) := by
  obtain ⟨b, t, ht, hb⟩ := exists_ofNat_eq_cons v.toInt.natAbs
  have hmin : v.toInt ≠ -2 ^ 63 := fun h => hv (Int64.toInt_inj.mp h)
  have hlow := v.le_toInt
  have hhigh := v.toInt_lt
  have hlt : v.toInt.natAbs < 2 ^ 63 := by omega
  have hread : readInt none (Text.ofNat v.toInt.natAbs) = .ok (Int64.ofNat v.toInt.natAbs) := by
    have hnat : readNat none (Text.ofNat v.toInt.natAbs) = .ok v.toInt.natAbs :=
      readNat_ofNat (by omega)
    rw [ht] at hnat ⊢
    rw [readInt_of_isDigit hb, hnat]
    exact if_neg hlt.not_ge
  rw [ofInt_eq_signed, ht, parse?_signed _ hb, ← ht, hread]
  dsimp only
  rcases lt_or_ge v.toInt 0 with hneg | hpos
  · have habs : -(v.toInt.natAbs : Int) = v.toInt := by omega
    rw [decide_eq_true hneg, if_pos rfl, Int64.neg_ofNat, habs, Int64.ofInt_toInt]
  · have habs : (v.toInt.natAbs : Int) = v.toInt := by omega
    rw [decide_eq_false hpos.not_gt, if_neg Bool.false_ne_true, ← Int64.ofInt_eq_ofNat, habs,
      Int64.ofInt_toInt]

end Stack6502
