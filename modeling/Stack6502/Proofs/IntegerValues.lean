import Stack6502.Proofs.IntegerLiterals

/-!
# Integer values

A value is read as an integer from an optional minus, an optional mark of the base and digits. The
digits may have a sign of their own, which comes after the mark. If they have none, or if it is the
only sign and stands first, then the text is a signed literal and the integer is its exact value.
-/
namespace Stack6502

namespace IntLiteral

/-! ### Signs and marks of bases -/

inductive Sign
  | absent | plus | minus
  deriving DecidableEq, Repr

namespace Sign

def text : Sign → Text
  | .absent => []
  | .plus => [Text.byte '+']
  | .minus => [Text.byte '-']

def apply : Sign → Nat → Int
  | .absent, n => n
  | .plus, n => n
  | .minus, n => -n

end Sign

inductive BaseMark
  | absent | dollar | percent
  deriving DecidableEq, Repr

namespace BaseMark

def text : BaseMark → Text
  | .absent => []
  | .dollar => [Text.byte '$']
  | .percent => [Text.byte '%']

def base? : BaseMark → Option Nat
  | .absent => none
  | .dollar => some 16
  | .percent => some 2

def Reads : BaseMark → Text → Nat → Prop
  | .absent => Literal
  | .dollar => Numeral 16 false
  | .percent => Numeral 2 false

end BaseMark

/-- An unsigned integer: hexadecimal digits after `$`, binary digits after `%`, or a literal that
names its base itself. -/
def Unsigned (t : Text) (n : Nat) : Prop :=
  ∃ (m : BaseMark) (u : Text), t = m.text ++ u ∧ m.Reads u n

def Signed (t : Text) (i : Int) : Prop :=
  ∃ (sign : Sign) (u : Text) (n : Nat), t = sign.text ++ u ∧ Unsigned u n ∧ i = sign.apply n

section Marks

variable {m : BaseMark} {t u : Text} {n : Nat}

theorem readNat_eq_ok_iff : readNat m.base? t = .ok n ↔ m.Reads t n ∧ n < 2 ^ 64 := by
  cases m with
  | absent => exact readNat_none_eq_ok_iff
  | dollar => exact readNat_some_eq_ok_iff (by decide)
  | percent => exact readNat_some_eq_ok_iff (by decide)

/-- Literals are letters, digits and underscores. -/
theorem Numeral.notMem {base : Nat} {underscores : Bool} (h : Numeral base underscores t n)
    (hbase : base ≤ 16) {c : UInt8} (hc : digit? c = none) (hmark : c ≠ underscore) : c ∉ t := by
  induction h with
  | digit hb => simpa using (hb.ne hbase hc).symm
  | more _ hb ih => simpa [ih] using (hb.ne hbase hc).symm
  | group _ _ hb ih => simpa [ih, hmark] using (hb.ne hbase hc).symm

theorem Literal.notMem (h : Literal t n) {c : UInt8} (hc : digit? c = none)
    (hmark : c ≠ underscore) : c ∉ t := by
  cases h with
  | zero =>
    change c ∉ [Text.byte '0']
    rw [List.mem_singleton]
    rintro rfl
    cases hc
  | decimal ht _ => exact ht.notMem (by decide) hc hmark
  | @based lead base gap t n hlead hgap ht =>
    have hleads : leads.all fun lead =>
        (Text.ofString lead.1).all fun b => (digit? b).isSome := by decide
    have hlead' : c ∉ Text.ofString lead := fun hmem => by
      have hsome := List.all_eq_true.mp (List.all_eq_true.mp hleads _ hlead) c hmem
      rw [hc] at hsome
      cases hsome
    have hgap' : c ∉ gap := by
      rcases hgap with rfl | rfl
      · simp
      · simpa using hmark
    have hbase : base ≤ 16 := by
      have := base_of_mem_leads hlead
      dsimp only at this
      omega
    simp [hlead', hgap', ht.notMem hbase hc hmark]

theorem BaseMark.Reads.notMem (h : m.Reads t n) {c : UInt8} (hc : digit? c = none)
    (hmark : c ≠ underscore) : c ∉ t := by
  cases m with
  | absent => exact Literal.notMem h hc hmark
  | dollar => exact Numeral.notMem h (by decide) hc hmark
  | percent => exact Numeral.notMem h (by decide) hc hmark

end Marks

/-! ### Integers with a sign -/

section Integers

variable {v : Int64} {n : Nat}

theorem toInt_eq_iff : v.toInt = n ↔ n < 2 ^ 63 ∧ v = Int64.ofNat n := by
  constructor
  · intro h
    have hlt := v.toInt_lt
    refine ⟨by omega, ?_⟩
    rw [← Int64.ofInt_eq_ofNat, ← h, Int64.ofInt_toInt]
  · rintro ⟨hlt, rfl⟩
    exact Int64.toInt_ofNat_of_lt hlt

theorem toInt_eq_neg_iff : v.toInt = -n ↔ n ≤ 2 ^ 63 ∧ v = Int64.ofInt (-n) := by
  constructor
  · intro h
    have hle := v.le_toInt
    refine ⟨by omega, ?_⟩
    rw [← h, Int64.ofInt_toInt]
  · rintro ⟨hle, rfl⟩
    exact Int64.toInt_ofInt_of_le (by omega) (by omega)

/-- A number in the range that its sign leaves. -/
theorem ite_range_iff (sign : Sign) :
    (if sign = .minus then (if 2 ^ 63 < n then .error .outOfRange else .ok (Int64.ofInt (-n)))
      else if 2 ^ 63 ≤ n then .error .outOfRange else .ok (Int64.ofNat n) :
        Except IntFault Int64) = .ok v ↔ v.toInt = sign.apply n := by
  have hpositive : (if 2 ^ 63 ≤ n then .error .outOfRange else .ok (Int64.ofNat n) :
      Except IntFault Int64) = .ok v ↔ v.toInt = n := by
    rw [toInt_eq_iff]
    split
    · simp only [reduceCtorEq, false_iff, not_and]
      omega
    · rw [and_iff_right (by omega), Except.ok.injEq, eq_comm]
  cases sign with
  | absent => exact hpositive
  | plus => exact hpositive
  | minus =>
    rw [if_pos rfl, Sign.apply, toInt_eq_neg_iff]
    split
    · simp only [reduceCtorEq, false_iff, not_and]
      omega
    · rw [and_iff_right (by omega), Except.ok.injEq, eq_comm]

/-- What follows the sign is read as a natural number. -/
theorem readInt_sign_iff {base : Option Nat} {sign : Sign} {u : Text}
    (hu : sign = .absent → dropSign u = u) : readInt base (sign.text ++ u) = .ok v ↔
      ∃ n, readNat base u = .ok n ∧ v.toInt = sign.apply n := by
  have hread : readInt base (sign.text ++ u) = readNat base u >>= fun n =>
      if sign = .minus then (if 2 ^ 63 < n then .error .outOfRange else .ok (Int64.ofInt (-n)))
      else if 2 ^ 63 ≤ n then .error .outOfRange else .ok (Int64.ofNat n) := by
    cases sign with
    | plus => rfl
    | minus => rfl
    | absent =>
      have hhead : (u.head? == some (Text.byte '-')) = false := by
        rcases u with - | ⟨b, u⟩
        · rfl
        · simp only [List.head?_cons, beq_eq_false_iff_ne, ne_eq, Option.some.injEq]
          rintro rfl
          exact absurd (congrArg List.length (hu rfl)) (by simp [dropSign])
      simp [readInt, Sign.text, hhead, hu rfl]
  rw [hread]
  cases readNat base u with
  | error fault => simp [bind, Except.bind]
  | ok n => simp only [bind, Except.bind, Except.ok.injEq, exists_eq_left', ite_range_iff]

theorem exists_sign (t : Text) :
    ∃ (sign : Sign) (u : Text), t = sign.text ++ u ∧ (sign = .absent → dropSign u = u) := by
  cases t with
  | nil => exact ⟨.absent, [], rfl, fun _ => rfl⟩
  | cons b t =>
    by_cases hminus : b = Text.byte '-'
    · exact ⟨.minus, t, by rw [hminus]; rfl, fun h => by cases h⟩
    · by_cases hplus : b = Text.byte '+'
      · exact ⟨.plus, t, by rw [hplus]; rfl, fun h => by cases h⟩
      · exact ⟨.absent, b :: t, rfl, fun _ => dropSign_of_ne hminus hplus t⟩

theorem dropSign_of_notMem {t : Text} (hminus : Text.byte '-' ∉ t) (hplus : Text.byte '+' ∉ t) :
    dropSign t = t := by
  cases t with
  | nil => rfl
  | cons b t =>
    exact dropSign_of_ne (List.ne_of_not_mem_cons hminus).symm
      (List.ne_of_not_mem_cons hplus).symm t

theorem readInt_eq_ok_iff {m : BaseMark} {t : Text} : readInt m.base? t = .ok v ↔
    ∃ (sign : Sign) (u : Text) (n : Nat), t = sign.text ++ u ∧ m.Reads u n ∧
      v.toInt = sign.apply n := by
  constructor
  · intro h
    obtain ⟨sign, u, rfl, hu⟩ := exists_sign t
    obtain ⟨n, hn, hv⟩ := (readInt_sign_iff hu).mp h
    exact ⟨sign, u, n, rfl, (readNat_eq_ok_iff.mp hn).1, hv⟩
  · rintro ⟨sign, u, n, rfl, hn, hv⟩
    have hu : dropSign u = u :=
      dropSign_of_notMem (hn.notMem rfl (by decide)) (hn.notMem rfl (by decide))
    have hle := v.le_toInt
    have hlt := v.toInt_lt
    have hrange : n < 2 ^ 64 := by
      cases sign <;> simp only [Sign.apply] at hv <;> omega
    exact (readInt_sign_iff fun _ => hu).mpr ⟨n, readNat_eq_ok_iff.mpr ⟨hn, hrange⟩, hv⟩

end Integers

end IntLiteral

/-! ### Values -/

open IntLiteral

namespace Value

/-- How a text is read as an integer: a minus or none, the mark of a base or none, and digits of
that base with a sign of their own or none. The two signs are applied one after the other. -/
inductive ReadsInt : Text → Int64 → Prop
  | mk (negative : Bool) (m : BaseMark) (sign : Sign) {u : Text} {n : Nat} {w : Int64}
    (hminus : negative = false → m = .absent → sign ≠ .minus) (hu : m.Reads u n)
    (hw : w.toInt = sign.apply n) :
    ReadsInt (signed negative (m.text ++ (sign.text ++ u))) (if negative then -w else w)

variable {t : Text} {v : Int64}

theorem exists_mark (t : Text) :
    ∃ (m : BaseMark) (u : Text), t = m.text ++ u ∧ splitMark t = (m.base?, u) := by
  cases t with
  | nil => exact ⟨.absent, [], rfl, rfl⟩
  | cons b t =>
    by_cases hdollar : b = Text.byte '$'
    · exact ⟨.dollar, t, by rw [hdollar]; rfl, by rw [hdollar]; rfl⟩
    · by_cases hpercent : b = Text.byte '%'
      · exact ⟨.percent, t, by rw [hpercent]; rfl, by rw [hpercent]; rfl⟩
      · exact ⟨.absent, b :: t, rfl, by simp [splitMark, hdollar, hpercent, BaseMark.base?]⟩

theorem splitMark_text {m : BaseMark} {u : Text} (hdollar : u.head? ≠ some (Text.byte '$'))
    (hpercent : u.head? ≠ some (Text.byte '%')) : splitMark (m.text ++ u) = (m.base?, u) := by
  cases m with
  | dollar => rfl
  | percent => rfl
  | absent =>
    cases u with
    | nil => rfl
    | cons b u =>
      rw [List.head?_cons, ne_eq, Option.some.injEq] at hdollar hpercent
      simp [splitMark, BaseMark.text, BaseMark.base?, hdollar, hpercent]

/-- After the minus and the mark an integer literal follows. -/
theorem parse?_int_iff {negative : Bool} {base : Option Nat} {u : Text}
    (hhead : (t.head? == some (Text.byte '-')) = negative)
    (hmark : splitMark (if negative then t.drop 1 else t) = (base, u)) :
    parse? t = some (.int v) ↔
      ∃ w, readInt base u = .ok w ∧ v = if negative then -w else w := by
  simp only [parse?, hhead, hmark]
  cases readInt base u with
  | ok w => simp [eq_comm]
  | error fault => cases base <;> simp

theorem parse?_eq_int_iff : parse? t = some (.int v) ↔ ReadsInt t v := by
  constructor
  · intro h
    cases hhead : t.head? == some (Text.byte '-') with
    | true =>
      obtain ⟨rest, rfl⟩ := List.head?_eq_some_iff.mp (beq_iff_eq.mp hhead)
      obtain ⟨m, u, rfl, hmark⟩ := exists_mark rest
      obtain ⟨w, hw, rfl⟩ := (parse?_int_iff hhead hmark).mp h
      obtain ⟨sign, u, n, rfl, hn, hw⟩ := readInt_eq_ok_iff.mp hw
      exact .mk true m sign (by simp) hn hw
    | false =>
      obtain ⟨m, u, rfl, hmark⟩ := exists_mark t
      obtain ⟨w, hw, rfl⟩ := (parse?_int_iff hhead hmark).mp h
      obtain ⟨sign, u, n, rfl, hn, hw⟩ := readInt_eq_ok_iff.mp hw
      refine .mk false m sign (fun _ hm hsign => ?_) hn hw
      rw [hm, hsign] at hhead
      cases hhead
  · rintro @⟨negative, m, sign, u, n, w, hminus, hu, hw⟩
    have hlead {c : UInt8} (hc : digit? c = none) (hmark : c ≠ underscore) (hsign : c ∉ sign.text) :
        (sign.text ++ u).head? ≠ some c := fun h =>
      (List.mem_append.mp (List.mem_of_mem_head? h)).elim hsign (hu.notMem hc hmark)
    have hmark : splitMark (m.text ++ (sign.text ++ u)) = (m.base?, sign.text ++ u) :=
      splitMark_text (hlead rfl (by decide) (by cases sign <;> decide))
        (hlead rfl (by decide) (by cases sign <;> decide))
    have hread := readInt_eq_ok_iff.mpr ⟨sign, u, n, rfl, hu, hw⟩
    cases negative with
    | true =>
      have hhead : ((Text.byte '-' :: (m.text ++ (sign.text ++ u))).head? ==
          some (Text.byte '-')) = true := rfl
      exact (parse?_int_iff hhead hmark).mpr ⟨w, hread, rfl⟩
    | false =>
      have hhead : ((m.text ++ (sign.text ++ u)).head? == some (Text.byte '-')) = false := by
        cases m with
        | dollar => rfl
        | percent => rfl
        | absent =>
          have hsign : Text.byte '-' ∉ sign.text := by
            cases sign with
            | absent => decide
            | plus => decide
            | minus => exact absurd rfl (hminus rfl rfl)
          exact beq_false_of_ne (hlead rfl (by decide) hsign)
      exact (parse?_int_iff hhead hmark).mpr ⟨w, hread, rfl⟩

end Value

/-! ### Signed literals -/

namespace IntLiteral

def isSign (b : UInt8) : Bool := b == Text.byte '-' || b == Text.byte '+'

theorem Sign.eq_absent {sign : Sign} (h : ∀ b ∈ sign.text, isSign b = false) :
    sign = .absent := by
  cases sign with
  | absent => rfl
  | plus => cases h _ (List.mem_singleton_self _)
  | minus => cases h _ (List.mem_singleton_self _)

theorem Unsigned.isSign_eq_false {u : Text} {n : Nat} (h : Unsigned u n) :
    ∀ b ∈ u, isSign b = false := by
  obtain ⟨m, u, rfl, hu⟩ := h
  have hmark {c : UInt8} (hc : digit? c = none) (hne : c ≠ underscore) (hm : c ∉ m.text) :
      c ∉ m.text ++ u := fun h => (List.mem_append.mp h).elim hm (hu.notMem hc hne)
  have hminus : Text.byte '-' ∉ m.text ++ u := hmark rfl (by decide) (by cases m <;> decide)
  have hplus : Text.byte '+' ∉ m.text ++ u := hmark rfl (by decide) (by cases m <;> decide)
  intro b hb
  simp only [isSign, Bool.or_eq_false_iff, beq_eq_false_iff_ne]
  exact ⟨fun h => hminus (h ▸ hb), fun h => hplus (h ▸ hb)⟩

/-- The only sign of a signed literal stands first. -/
theorem Signed.isSign_tail {t : Text} {i : Int} (h : Signed t i) :
    ∀ b ∈ t.tail, isSign b = false := by
  obtain ⟨sign, u, n, rfl, hu, -⟩ := h
  have hunsigned := hu.isSign_eq_false
  cases sign with
  | absent => exact fun b hb => hunsigned b (List.mem_of_mem_tail hb)
  | plus => exact hunsigned
  | minus => exact hunsigned

theorem toInt_neg_of_nonneg {w : Int64} {n : Nat} (h : w.toInt = n) : (-w).toInt = -n := by
  have hlt := w.toInt_lt
  rw [Int64.toInt_neg, h]
  exact Int.bmod_eq_of_le (by omega) (by omega)

end IntLiteral

namespace Value

variable {t : Text} {v : Int64}

/-- Where no sign stands after the first byte, the digits have none of their own after a minus or a
mark. -/
theorem ReadsInt.signed (h : ReadsInt t v) (htail : ∀ b ∈ t.tail, isSign b = false) :
    Signed t v.toInt := by
  obtain @⟨negative, m, sign, u, n, w, hminus, hu, hw⟩ := h
  have hmarked (hsign : sign = .absent) : Unsigned (m.text ++ (sign.text ++ u)) n :=
    ⟨m, u, by rw [hsign]; rfl, hu⟩
  cases negative with
  | true =>
    have hsign : sign = .absent := Sign.eq_absent fun b hb =>
      htail b (by simp [Stack6502.signed, hb])
    have hvalue : w.toInt = n := by rw [hw, hsign]; rfl
    exact ⟨.minus, _, n, rfl, hmarked hsign, toInt_neg_of_nonneg hvalue⟩
  | false =>
    cases m with
    | absent => exact ⟨sign, u, n, rfl, ⟨.absent, u, rfl, hu⟩, hw⟩
    | dollar | percent =>
      have hsign : sign = .absent := Sign.eq_absent fun b hb => htail b (by
        simp [Stack6502.signed, BaseMark.text, hb])
      refine ⟨.absent, _, n, rfl, hmarked hsign, ?_⟩
      rw [hsign] at hw
      exact hw

/-- A text read as an integer is a signed literal with that exact value exactly if no sign stands
after its first byte. -/
theorem parse?_exact_iff (h : parse? t = some (.int v)) :
    ReadsInt t v ∧ (Signed t v.toInt ↔ ∀ b ∈ t.tail, isSign b = false) := by
  have hreads := parse?_eq_int_iff.mp h
  exact ⟨hreads, Signed.isSign_tail, hreads.signed⟩

theorem parse?_exact_iff_dollar : parse? "-$ff" = some (.int (-255)) ∧ Signed "-$ff" (-255) := by
  have hread : parse? "-$ff" = some (.int (-255)) := by decide
  have htail : (Text.ofString "-$ff").tail.all (!isSign ·) := by decide
  refine ⟨hread, (parse?_exact_iff hread).2.mpr fun b hb => ?_⟩
  simpa using List.all_eq_true.mp htail b hb

/-- A second sign is read as well. The least integer has no negation, so there the first sign is
lost. -/
theorem parse?_second_sign : parse? "--5" = some (.int 5) ∧ (¬ ∃ i, Signed "--5" i) ∧
    parse? "--9223372036854775808" = some (.int (-9223372036854775808)) := by
  refine ⟨by decide, ?_, by decide⟩
  rintro ⟨i, hsigned⟩
  cases hsigned.isSign_tail (Text.byte '-') (List.mem_cons_self ..)

end Value

end Stack6502
