import Stack6502.Program.Value
import Stack6502.Proofs.Numerals

/-!
# Integer literals and their values

The integer literals as a grammar, with the number that each of them stands for. Reading accepts
exactly the literals of numbers in range, and gives that number.
-/
namespace Stack6502

namespace IntLiteral

/-! ### The grammar -/

/-- The byte is the digit of value `d` in a base. Letters may be in either case. -/
def IsDigitFor (base : Nat) (b : UInt8) (d : Nat) : Prop :=
  d < base ∧ (b = Text.byte d.digitChar ∨ b = Text.byte d.digitChar.toUpper)

/-- Digits of a base, the most significant first, and their value. Where underscores are allowed,
one may stand between two digits. -/
inductive Numeral (base : Nat) (underscores : Bool) : Text → Nat → Prop
  | digit {b : UInt8} {d : Nat} (hb : IsDigitFor base b d) : Numeral base underscores [b] d
  | more {t : Text} {n : Nat} {b : UInt8} {d : Nat} (ht : Numeral base underscores t n)
    (hb : IsDigitFor base b d) : Numeral base underscores (t ++ [b]) (n * base + d)
  | group {t : Text} {n : Nat} {b : UInt8} {d : Nat} (ht : Numeral base underscores t n)
    (hallowed : underscores = true) (hb : IsDigitFor base b d) :
    Numeral base underscores (t ++ [underscore, b]) (n * base + d)

def leads : List (String × Nat) :=
  [("0", 8), ("0b", 2), ("0B", 2), ("0o", 8), ("0O", 8), ("0x", 16), ("0X", 16)]

/-- A literal that names its base, and its value. An underscore may follow the mark. -/
inductive Literal : Text → Nat → Prop
  | zero : Literal "0" 0
  | decimal {t : Text} {n : Nat} (ht : Numeral 10 true t n)
    (hhead : t.head? ≠ some (Text.byte '0')) : Literal t n
  | based {lead : String} {base : Nat} {gap t : Text} {n : Nat} (hlead : (lead, base) ∈ leads)
    (hgap : gap = [] ∨ gap = [underscore]) (ht : Numeral base true t n) :
    Literal (lead ++ (gap ++ t)) n

/-! ### Digits -/

section Digits

variable {base : Nat} {b : UInt8} {d : Nat}

theorem digit?_eq_some_iff (hbase : base ≤ 16) :
    digit? b = some d ∧ d < base ↔ IsDigitFor base b d := by
  have hbytes : ∀ n < 256, (digit? (UInt8.ofNat n)).all fun d => 16 ≤ d ||
      UInt8.ofNat n == Text.byte d.digitChar || UInt8.ofNat n == Text.byte d.digitChar.toUpper := by
    decide +kernel
  have hdigits : ∀ d : Nat, d < 16 → digit? (Text.byte d.digitChar) = some d ∧
      digit? (Text.byte d.digitChar.toUpper) = some d := by decide
  constructor
  · rintro ⟨hdigit, hd⟩
    have hbyte := hbytes b.toNat b.toNat_lt
    rw [UInt8.ofNat_toNat, hdigit] at hbyte
    have hsmall : ¬ 16 ≤ d := by omega
    exact ⟨hd, by simpa [hsmall] using hbyte⟩
  · rintro ⟨hd, rfl | rfl⟩
    · exact ⟨(hdigits d (by omega)).1, hd⟩
    · exact ⟨(hdigits d (by omega)).2, hd⟩

theorem IsDigitFor.ne {c : UInt8} (h : IsDigitFor base b d) (hbase : base ≤ 16)
    (hc : digit? c = none) : b ≠ c := by
  rintro rfl
  have hdigit := ((digit?_eq_some_iff hbase).mpr h).1
  rw [hc] at hdigit
  cases hdigit

/-- A digit counts as one where underscores are checked. -/
theorem IsDigitFor.isGrouped {hex : Bool} (h : IsDigitFor base b d)
    (hbase : base ≤ 10 ∨ hex = true ∧ base ≤ 16) :
    (isDigit b || (hex && Text.byte 'a' ≤ lowerByte b && lowerByte b ≤ Text.byte 'f')) = true := by
  have hdecimal : ∀ d : Nat, d < 10 → isDigit (Text.byte d.digitChar) ∧
      isDigit (Text.byte d.digitChar.toUpper) := by decide +kernel
  have hletter : ∀ d : Nat, d < 16 → 10 ≤ d →
      lowerByte (Text.byte d.digitChar) = Text.byte d.digitChar ∧
      lowerByte (Text.byte d.digitChar.toUpper) = Text.byte d.digitChar ∧
      Text.byte 'a' ≤ Text.byte d.digitChar ∧ Text.byte d.digitChar ≤ Text.byte 'f' := by
    decide +kernel
  obtain ⟨hd, hb⟩ := h
  rcases Nat.lt_or_ge d 10 with hlt | hge
  · obtain ⟨hlower, hupper⟩ := hdecimal d hlt
    rcases hb with rfl | rfl
    · rw [hlower, Bool.true_or]
    · rw [hupper, Bool.true_or]
  · obtain ⟨rfl, hbase⟩ := hbase.resolve_left (by omega)
    obtain ⟨hlower, hupper, hfirst, hlast⟩ := hletter d (by omega) hge
    rcases hb with rfl | rfl
    · simp [hlower, hfirst, hlast]
    · simp [hupper, hfirst, hlast]

end Digits

/-! ### Reading digits -/

section Numerals

variable {base : Nat} {underscores hex : Bool} {b : UInt8} {d n : Nat} {t : Text}

theorem readDigits_cons (hb : IsDigitFor base b d) (hbase : base ≤ 16) (acc : Nat) (t : Text)
    (h : acc * base + d < 2 ^ 64) :
    readDigits base underscores acc (b :: t) = readDigits base underscores (acc * base + d) t := by
  obtain ⟨hdigit, hd⟩ := (digit?_eq_some_iff hbase).mpr hb
  have hmark : (b == underscore) = false := beq_false_of_ne (hb.ne hbase rfl)
  simp only [readDigits, hmark, Bool.and_false, Bool.false_eq_true, if_false, hdigit, Nat.pow_eq,
    if_neg hd.not_ge, if_neg h.not_ge]

/-- What was read without a fault starts with a digit, or with an underscore if they are allowed. -/
theorem of_readDigits_cons {acc : Nat} (hbase : base ≤ 16)
    (h : readDigits base underscores acc (b :: t) = .ok n) :
    (underscores = true ∧ b = underscore ∧ readDigits base underscores acc t = .ok n) ∨
      ∃ d, IsDigitFor base b d ∧ readDigits base underscores (acc * base + d) t = .ok n := by
  rw [readDigits] at h
  split at h
  · rename_i hmark
    rw [Bool.and_eq_true, beq_iff_eq] at hmark
    exact .inl ⟨hmark.1, hmark.2, h⟩
  · split at h
    · cases h
    · rename_i d hd
      split at h
      · cases h
      · rename_i hlt
        split at h
        · cases h
        · exact .inr ⟨d, (digit?_eq_some_iff hbase).mp ⟨hd, Nat.not_le.mp hlt⟩, h⟩

theorem readDigits_lt {acc : Nat} (hacc : acc < 2 ^ 64)
    (h : readDigits base underscores acc t = .ok n) : n < 2 ^ 64 := by
  fun_induction readDigits base underscores acc t with
  | case1 acc =>
    cases h
    exact hacc
  | case2 acc b t _ ih => exact ih hacc h
  | case3 | case4 | case5 => cases h
  | case6 acc b t _ d _ _ hlarge ih => exact ih (Nat.not_le.mp hlarge) h

theorem checkUnderscores_digit (hb : IsDigitFor base b d)
    (hbase : base ≤ 10 ∨ hex = true ∧ base ≤ 16) (seen : Seen) (t : Text) :
    checkUnderscores hex seen (b :: t) = checkUnderscores hex .digit t := by
  rw [checkUnderscores, if_pos (hb.isGrouped hbase)]

theorem checkUnderscores_underscore (hex : Bool) (seen : Seen) (t : Text) :
    checkUnderscores hex seen (underscore :: t) =
      (seen == .digit && checkUnderscores hex .underscore t) := by
  have hdigit : (isDigit underscore || (hex && Text.byte 'a' ≤ lowerByte underscore &&
      lowerByte underscore ≤ Text.byte 'f')) = false := by
    cases hex <;> rfl
  rw [checkUnderscores, hdigit]
  rfl

/-- Digits after those of a numeral belong to it. -/
theorem Numeral.append {front : Text} {acc : Nat} (hfront : Numeral base false front acc)
    (hbase : base ≤ 16) (h : readDigits base false acc t = .ok n) :
    Numeral base false (front ++ t) n := by
  induction t generalizing front acc with
  | nil =>
    cases h
    rwa [List.append_nil]
  | cons b t ih =>
    obtain ⟨⟨⟩, -⟩ | ⟨d, hb, h⟩ := of_readDigits_cons hbase h
    have hall := ih (hfront.more hb) h
    rwa [List.append_assoc] at hall

/-- Likewise with underscores among them, also if the first digit follows one. -/
theorem Numeral.append_grouped {front : Text} {acc : Nat} (hfront : Numeral base true front acc)
    (hbase : base ≤ 10 ∨ hex = true ∧ base ≤ 16) (h : readDigits base true acc t = .ok n) :
    (checkUnderscores hex .digit t → Numeral base true (front ++ t) n) ∧
      (checkUnderscores hex .underscore t → Numeral base true (front ++ underscore :: t) n) := by
  have hsmall : base ≤ 16 := by omega
  induction t generalizing front acc with
  | nil =>
    cases h
    refine ⟨fun _ => by rwa [List.append_nil], fun hcheck => ?_⟩
    cases hcheck
  | cons b t ih =>
    rcases of_readDigits_cons hsmall h with ⟨-, rfl, h⟩ | ⟨d, hb, h⟩
    · constructor
      · intro hcheck
        rw [checkUnderscores_underscore] at hcheck
        exact (ih hfront h).2 hcheck
      · intro hcheck
        rw [checkUnderscores_underscore] at hcheck
        cases hcheck
    · simp only [checkUnderscores_digit hb hbase]
      constructor
      · intro hcheck
        have hall := (ih (hfront.more hb) h).1 hcheck
        rwa [List.append_assoc] at hall
      · intro hcheck
        have hall := (ih (hfront.group rfl hb) h).1 hcheck
        rwa [List.append_assoc] at hall

theorem Numeral.of_readDigits (hbase : base ≤ 16) (hne : t ≠ [])
    (h : readDigits base false 0 t = .ok n) : Numeral base false t n := by
  obtain ⟨b, t, rfl⟩ := List.exists_cons_of_ne_nil hne
  obtain ⟨⟨⟩, -⟩ | ⟨d, hb, h⟩ := of_readDigits_cons hbase h
  rw [Nat.zero_mul, Nat.zero_add] at h
  exact (Numeral.digit hb).append hbase h

/-- A numeral is read to its end. -/
theorem Numeral.readDigits_append (ht : Numeral base underscores t n) (hbase : base ≤ 16)
    (h : n < 2 ^ 64) (rest : Text) :
    readDigits base underscores 0 (t ++ rest) = readDigits base underscores n rest := by
  induction ht generalizing rest with
  | @digit b d hb =>
    have hread : readDigits base underscores 0 (b :: rest) =
        readDigits base underscores (0 * base + d) rest :=
      readDigits_cons hb hbase 0 rest (by omega)
    rwa [Nat.zero_mul, Nat.zero_add] at hread
  | @more t n b d ht hb ih =>
    have hle : n ≤ n * base := Nat.le_mul_of_pos_right n (by have := hb.1; omega)
    rw [List.append_assoc, ih (by omega)]
    exact readDigits_cons hb hbase n rest h
  | @group t n b d ht hallowed hb ih =>
    have hle : n ≤ n * base := Nat.le_mul_of_pos_right n (by have := hb.1; omega)
    rw [List.append_assoc, ih (by omega), ← readDigits_cons hb hbase n rest h, hallowed]
    rfl

theorem Numeral.readDigits_eq (ht : Numeral base underscores t n) (hbase : base ≤ 16)
    (h : n < 2 ^ 64) : readDigits base underscores 0 t = .ok n := by
  have hread := ht.readDigits_append hbase h []
  rwa [List.append_nil] at hread

/-- Underscores within a numeral stand between digits. -/
theorem Numeral.checkUnderscores_append (ht : Numeral base true t n)
    (hbase : base ≤ 10 ∨ hex = true ∧ base ≤ 16) (seen : Seen) (rest : Text) :
    checkUnderscores hex seen (t ++ rest) = checkUnderscores hex .digit rest := by
  induction ht generalizing rest with
  | digit hb => exact checkUnderscores_digit hb hbase seen rest
  | more ht hb ih =>
    rw [List.append_assoc, ih]
    exact checkUnderscores_digit hb hbase .digit rest
  | @group t n b d ht hallowed hb ih =>
    rw [List.append_assoc, ih]
    have hmark := checkUnderscores_underscore hex .digit (b :: rest)
    rw [checkUnderscores_digit hb hbase] at hmark
    exact hmark

/-- After the mark of a base an underscore may come before the digits. -/
theorem Numeral.exists_gap (hbase : base ≤ 10 ∨ hex = true ∧ base ≤ 16) (hne : t ≠ [])
    (h : readDigits base true 0 t = .ok n) (hcheck : checkUnderscores hex .digit t) :
    ∃ gap u, t = gap ++ u ∧ (gap = [] ∨ gap = [underscore]) ∧ Numeral base true u n := by
  have hsmall : base ≤ 16 := by omega
  have hfirst {b : UInt8} {d : Nat} {u : Text} {seen : Seen} (hb : IsDigitFor base b d)
      (h : readDigits base true (0 * base + d) u = .ok n)
      (hcheck : checkUnderscores hex seen (b :: u)) : Numeral base true (b :: u) n := by
    rw [Nat.zero_mul, Nat.zero_add] at h
    rw [checkUnderscores_digit hb hbase] at hcheck
    exact ((Numeral.digit hb).append_grouped hbase h).1 hcheck
  obtain ⟨b, t, rfl⟩ := List.exists_cons_of_ne_nil hne
  rcases of_readDigits_cons hsmall h with ⟨-, rfl, hrest⟩ | ⟨d, hb, hrest⟩
  · rw [checkUnderscores_underscore] at hcheck
    cases t with
    | nil => cases hcheck
    | cons b t =>
      rcases of_readDigits_cons hsmall hrest with ⟨-, rfl, -⟩ | ⟨d, hb, hrest⟩
      · rw [checkUnderscores_underscore] at hcheck
        cases hcheck
      · exact ⟨[underscore], b :: t, rfl, .inr rfl, hfirst hb hrest hcheck⟩
  · exact ⟨[], b :: t, rfl, .inl rfl, hfirst hb hrest hcheck⟩

end Numerals

/-! ### Literals that name their base -/

section Literals

variable {b : UInt8} {n : Nat} {t : Text}

def isMark (b : UInt8) : Bool :=
  lowerByte b == Text.byte 'b' || lowerByte b == Text.byte 'o' || lowerByte b == Text.byte 'x'

theorem exists_lead_of_isMark (h : isMark b) :
    ∃ lead ∈ leads.tail, Text.ofString lead.1 = [Text.byte '0', b] := by
  have htable : ∀ n < 256, isMark (UInt8.ofNat n) →
      ∃ lead ∈ leads.tail, Text.ofString lead.1 = [Text.byte '0', UInt8.ofNat n] := by
    decide +kernel
  have hlead := htable b.toNat b.toNat_lt
  rw [UInt8.ofNat_toNat] at hlead
  exact hlead h

theorem IsDigitFor.isMark_eq_false {d : Nat} (h : IsDigitFor 8 b d) : isMark b = false := by
  have htable : ∀ d : Nat, d < 8 → isMark (Text.byte d.digitChar) = false ∧
      isMark (Text.byte d.digitChar.toUpper) = false := by decide +kernel
  obtain ⟨hd, rfl | rfl⟩ := h
  · exact (htable d hd).1
  · exact (htable d hd).2

theorem splitBase_of_ne (hb : b ≠ Text.byte '0') (t : Text) :
    splitBase (b :: t) = (10, b :: t) := by
  rcases t with - | ⟨c, - | ⟨d, t⟩⟩ <;> simp [splitBase, hb]

theorem splitBase_zero (h : ∀ mark ∈ t.head?, isMark mark = false) :
    splitBase (Text.byte '0' :: t) = (8, t) := by
  rcases t with - | ⟨c, - | ⟨d, t⟩⟩
  · rfl
  · rfl
  · have hmark := h c rfl
    simp only [isMark, Bool.or_eq_false_iff] at hmark
    simp [splitBase, hmark]

/-- A mark of a base is followed by the digits. -/
theorem splitBase_lead {lead : String × Nat} (h : lead ∈ leads.tail) (hne : t ≠ []) :
    splitBase (lead.1 ++ t) = (lead.2, t) ∧
      underscoresOk (lead.1 ++ t) = checkUnderscores (lead.2 == 16) .digit t := by
  obtain ⟨d, t, rfl⟩ := List.exists_cons_of_ne_nil hne
  simp only [leads, List.tail_cons, List.mem_cons, List.not_mem_nil, or_false] at h
  rcases h with rfl | rfl | rfl | rfl | rfl | rfl <;> exact ⟨rfl, rfl⟩

theorem underscoresOk_of_ne (hsign : dropSign (b :: t) = b :: t) (hb : b ≠ Text.byte '0') :
    underscoresOk (b :: t) = checkUnderscores false .start (b :: t) := by
  rw [underscoresOk, hsign]
  cases t with
  | nil => rfl
  | cons c t => simp [hb]

theorem underscoresOk_zero (h : ∀ mark ∈ t.head?, isMark mark = false) :
    underscoresOk (Text.byte '0' :: t) = checkUnderscores false .digit t := by
  cases t with
  | nil => rfl
  | cons c t =>
    have hmark := h c rfl
    simp only [isMark, Bool.or_eq_false_iff] at hmark
    have hsign : dropSign (Text.byte '0' :: c :: t) = Text.byte '0' :: c :: t := rfl
    rw [underscoresOk, hsign]
    simp [hmark]
    rfl

theorem checkUnderscores_of_notMem {hex : Bool} {seen : Seen} (hseen : seen ≠ .underscore)
    (h : underscore ∉ t) : checkUnderscores hex seen t := by
  induction t generalizing seen with
  | nil => simpa [checkUnderscores] using hseen
  | cons b t ih =>
    obtain ⟨hb, ht⟩ := not_or.mp (mt List.mem_cons.mpr h)
    rw [checkUnderscores]
    split
    · exact ih (by decide) ht
    · have hother := ih (show Seen.other ≠ .underscore by decide) ht
      rw [if_neg (by simpa using Ne.symm hb)]
      simp [hseen, hother]

theorem underscoresOk_of_notMem (h : underscore ∉ t) : underscoresOk t := by
  have hdrop : underscore ∉ dropSign t := by
    unfold dropSign
    split
    · split
      · exact fun hmem => h (List.mem_cons_of_mem _ hmem)
      · exact h
    · exact h
  unfold underscoresOk
  split
  · rename_i zero mark rest heq
    rw [heq] at hdrop
    dsimp only
    split
    · exact checkUnderscores_of_notMem (by decide)
        fun hmem => hdrop (List.mem_cons_of_mem _ (List.mem_cons_of_mem _ hmem))
    · exact checkUnderscores_of_notMem (by decide) hdrop
  · exact checkUnderscores_of_notMem (by decide) hdrop

/-- A literal is read as its digits in the base it names, if its underscores are in place. -/
theorem readNat_none_iff (hne : t ≠ []) : readNat none t = .ok n ↔
    readDigits (splitBase t).1 true 0 (splitBase t).2 = .ok n ∧ underscoresOk t := by
  have hempty : t.isEmpty = false := by simpa using hne
  have hcheck : (t.contains underscore && !underscoresOk t) = !underscoresOk t := by
    cases hmem : t.contains underscore with
    | true => rfl
    | false =>
      have hok := underscoresOk_of_notMem (by simpa using hmem : underscore ∉ t)
      rw [hok]
      rfl
  simp only [readNat, hempty, hcheck, Bool.false_eq_true, if_false]
  cases hread : readDigits (splitBase t).1 true 0 (splitBase t).2 with
  | error fault => simp [bind, Except.bind]
  | ok m =>
    cases hok : underscoresOk t with
    | true => simp [bind, Except.bind]
    | false => simp [bind, Except.bind]

theorem base_of_mem_leads {lead : String × Nat} (h : lead ∈ leads) :
    lead.2 ≤ 10 ∨ (lead.2 == 16) = true ∧ lead.2 ≤ 16 := by
  revert lead
  decide

theorem dropSign_of_ne (hminus : b ≠ Text.byte '-') (hplus : b ≠ Text.byte '+') (t : Text) :
    dropSign (b :: t) = b :: t := by
  simp [dropSign, hminus, hplus]

/-- Digits behind the mark of a base make a literal. -/
theorem Literal.of_lead {lead : String × Nat} (hlead : lead ∈ leads) (hne : t ≠ [])
    (hread : readDigits lead.2 true 0 t = .ok n)
    (hcheck : checkUnderscores (lead.2 == 16) .digit t) : Literal (lead.1 ++ t) n := by
  obtain ⟨gap, u, rfl, hgap, hu⟩ :=
    Numeral.exists_gap (base_of_mem_leads hlead) hne hread hcheck
  exact .based hlead hgap hu

theorem Literal.of_readNat (h : readNat none t = .ok n) : Literal t n := by
  have hne : t ≠ [] := by
    rintro rfl
    cases h
  obtain ⟨hread, hok⟩ := (readNat_none_iff hne).mp h
  obtain ⟨b, t, rfl⟩ := List.exists_cons_of_ne_nil hne
  by_cases hzero : b = Text.byte '0'
  · subst hzero
    -- A zero stands alone, before the mark of a base, or before octal digits.
    cases t with
    | nil =>
      cases hread
      exact .zero
    | cons mark t =>
      cases hmark : isMark mark with
      | true =>
        obtain ⟨lead, hlead, htext⟩ := exists_lead_of_isMark hmark
        cases t with
        | nil =>
          have hread' : readDigits 8 true 0 [mark] = .ok n := hread
          rcases of_readDigits_cons (by decide) hread' with ⟨-, rfl, -⟩ | ⟨d, hd, -⟩
          · cases hmark
          · rw [hd.isMark_eq_false] at hmark
            cases hmark
        | cons d t =>
          obtain ⟨hsplit, hcheck⟩ := splitBase_lead hlead (List.cons_ne_nil d t)
          rw [htext] at hsplit hcheck
          have hall := of_lead (List.mem_of_mem_tail hlead) (List.cons_ne_nil d t)
            (by rw [← hread]; exact congrArg (fun p => readDigits p.1 true 0 p.2) hsplit.symm)
            (hcheck.symm.trans hok)
          rwa [htext] at hall
      | false =>
        have hhead : ∀ c ∈ (mark :: t).head?, isMark c = false := by
          rintro c ⟨⟩
          exact hmark
        rw [splitBase_zero hhead] at hread
        rw [underscoresOk_zero hhead] at hok
        have hlead : (("0", 8) : String × Nat) ∈ leads := by decide
        exact of_lead hlead (List.cons_ne_nil mark t) hread hok
  · have hread' : readDigits 10 true 0 (b :: t) = .ok n := by rwa [splitBase_of_ne hzero] at hread
    rcases of_readDigits_cons (by decide) hread' with ⟨-, rfl, -⟩ | ⟨d, hd, hrest⟩
    · rw [underscoresOk_of_ne rfl hzero, checkUnderscores_underscore] at hok
      cases hok
    · have hsign := dropSign_of_ne (hd.ne (by decide) rfl) (hd.ne (by decide) rfl) t
      rw [underscoresOk_of_ne hsign hzero, checkUnderscores_digit hd (.inl (by decide))] at hok
      rw [Nat.zero_mul, Nat.zero_add] at hrest
      refine .decimal (((Numeral.digit hd).append_grouped (.inl (by decide)) hrest).1 hok) ?_
      simpa using hzero

theorem Numeral.exists_cons {base : Nat} {underscores : Bool} (h : Numeral base underscores t n) :
    ∃ b d u, t = b :: u ∧ IsDigitFor base b d := by
  induction h with
  | @digit b d hb => exact ⟨b, d, [], rfl, hb⟩
  | more _ _ ih =>
    obtain ⟨c, e, u, rfl, hc⟩ := ih
    exact ⟨c, e, _, rfl, hc⟩
  | group _ _ _ ih =>
    obtain ⟨c, e, u, rfl, hc⟩ := ih
    exact ⟨c, e, _, rfl, hc⟩

/-- Between a mark and the digits an underscore makes no difference. -/
theorem Numeral.read_gap {base : Nat} {gap : Text} (ht : Numeral base true t n) {hex : Bool}
    (hbase : base ≤ 10 ∨ hex = true ∧ base ≤ 16) (hgap : gap = [] ∨ gap = [underscore])
    (hn : n < 2 ^ 64) : readDigits base true 0 (gap ++ t) = .ok n ∧
      checkUnderscores hex .digit (gap ++ t) := by
  have hread := ht.readDigits_eq (by omega) hn
  have hcheck (seen : Seen) : checkUnderscores hex seen t := by
    have hall := ht.checkUnderscores_append hbase seen []
    rw [List.append_nil] at hall
    rw [hall]
    rfl
  rcases hgap with rfl | rfl
  · exact ⟨hread, hcheck .digit⟩
  · have hmark := checkUnderscores_underscore hex .digit t
    rw [hcheck .underscore] at hmark
    exact ⟨hread, hmark⟩

theorem Literal.readNat_eq (h : Literal t n) (hn : n < 2 ^ 64) : readNat none t = .ok n := by
  cases h with
  | zero => rfl
  | @decimal t n ht hhead =>
    have hread := ht.readDigits_eq (by decide) hn
    have hcheck : checkUnderscores false .start (t ++ []) = true :=
      ht.checkUnderscores_append (.inl (by decide)) .start []
    obtain ⟨b, d, u, rfl, hb⟩ := ht.exists_cons
    have hzero : b ≠ Text.byte '0' := by simpa using hhead
    have hsign := dropSign_of_ne (hb.ne (by decide) rfl) (hb.ne (by decide) rfl) u
    rw [List.append_nil] at hcheck
    rw [readNat_none_iff (by simp), splitBase_of_ne hzero, underscoresOk_of_ne hsign hzero]
    exact ⟨hread, hcheck⟩
  | @based lead base gap t n hlead hgap ht =>
    obtain ⟨hread, hcheck⟩ := ht.read_gap (base_of_mem_leads hlead) hgap hn
    obtain ⟨b, d, u, rfl, hb⟩ := ht.exists_cons
    have hne : gap ++ b :: u ≠ [] := by simp
    rcases List.mem_cons.mp hlead with heq | htail
    · obtain ⟨rfl, rfl⟩ := Prod.mk.inj heq
      have hmark : ∀ c ∈ (gap ++ b :: u).head?, isMark c = false := by
        rcases hgap with rfl | rfl
        · rintro c ⟨⟩
          exact hb.isMark_eq_false
        · rintro c ⟨⟩
          rfl
      change readNat none (Text.byte '0' :: (gap ++ b :: u)) = .ok n
      rw [readNat_none_iff (by simp), splitBase_zero hmark, underscoresOk_zero hmark]
      exact ⟨hread, hcheck⟩
    · obtain ⟨hsplit, hok⟩ := splitBase_lead htail hne
      rw [readNat_none_iff (List.append_ne_nil_of_right_ne_nil _ hne), hsplit, hok]
      exact ⟨hread, hcheck⟩

/-- Without a base of its own a literal is read exactly if it is in the grammar and in range. -/
theorem readNat_none_eq_ok_iff : readNat none t = .ok n ↔ Literal t n ∧ n < 2 ^ 64 := by
  constructor
  · intro h
    have hne : t ≠ [] := by
      rintro rfl
      cases h
    exact ⟨.of_readNat h, readDigits_lt (by decide) ((readNat_none_iff hne).mp h).1⟩
  · rintro ⟨h, hn⟩
    exact h.readNat_eq hn

/-- In a given base it is digits only. -/
theorem readNat_some_eq_ok_iff {base : Nat} (hbase : base ≤ 16) :
    readNat (some base) t = .ok n ↔ Numeral base false t n ∧ n < 2 ^ 64 := by
  have hread (hne : t ≠ []) : readNat (some base) t = readDigits base false 0 t := by
    have hempty : t.isEmpty = false := by simpa using hne
    simp [readNat, hempty]
  constructor
  · intro h
    have hne : t ≠ [] := by
      rintro rfl
      cases h
    rw [hread hne] at h
    exact ⟨.of_readDigits hbase hne h, readDigits_lt (by decide) h⟩
  · rintro ⟨h, hn⟩
    obtain ⟨b, d, u, rfl, -⟩ := h.exists_cons
    rw [hread (List.cons_ne_nil b u), h.readDigits_eq hbase hn]

end Literals

end IntLiteral

end Stack6502
