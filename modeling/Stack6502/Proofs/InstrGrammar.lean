import Stack6502.Proofs.CharacterCodes
import Stack6502.Proofs.InstrReadBack

/-!
# The grammar of instructions

An instruction is an opcode followed by at most two numbers and at most two names. Reading keeps no
more of the operands than the numbers read so far and the names read so far, each in order, so that
it makes no difference how numbers and names interleave.
-/
namespace Stack6502

/-! ### Opcodes by name -/

theorem Opcode.nodup_names : (all.map fun op => Text.ofString op.name).Nodup := by
  have hnumbers := names_spec.2
  rw [← Function.comp_def bytesNumber, ← List.map_map] at hnumbers
  exact List.Nodup.of_map _ hnumbers

theorem Opcode.parse?_eq_some_iff {t : Text} {op : Opcode} :
    parse? t = some op ↔ Text.ofString op.name = t.upper := by
  rw [parse?, find?_eq_some_iff_of_nodup nodup_names]
  exact and_iff_right op.mem_all

/-- Every opcode is found by its own name. -/
theorem Opcode.parse?_ofName (op : Opcode) : parse? op.name = some op := by
  rw [parse?_eq_some_iff, upper_of_lt fun b hb => ((name_spec op.mem_all).2 b hb).2]

namespace Instr

/-! ### The parts of a line -/

def opcodeText (t : Text) : Text := (t.trim.cut Text.space).1

def operandWords (t : Text) : List Text := ((t.trim.cut Text.space).2.getD []).words

/-- The opcode of a line, written in whatever case. -/
def NamesOpcode (t : Text) (op : Opcode) : Prop := (opcodeText t).upper = Text.ofString op.name

/-- A word that starts with a digit, a sign, a base mark or a point. -/
def isNumeral (w : Text) : Bool :=
  w.head?.any fun b =>
    (Text.byte '0' ≤ b && b ≤ Text.byte '9') || (['-', '+', '$', '%', '.'].map Text.byte).contains b

def numerals (t : Text) : List Text := (operandWords t).filter isNumeral

def names (t : Text) : List Text := (operandWords t).filter (!isNumeral ·)

def ofOperands (op : Opcode) (values : List Value) (names : List Text) : Instr :=
  { op := .known op
    arg := values[0]?
    arg2 := values[1]?
    sym := names[0]?.getD []
    sym2 := names[1]?.getD [] }

theorem startsNumber_eq (w : Text) : startsNumber w = isNumeral w := by
  have hmarks : Text.ofString "-+$%." = ['-', '+', '$', '%', '.'].map Text.byte := by decide
  cases w with
  | nil => rfl
  | cons b w =>
    rw [startsNumber, hmarks]
    rfl

/-! ### Operands one after another -/

section Operands

variable {op : Opcode} {values : List Value} {names : List Text} {w : Text} {x y : Instr}

theorem addValue_ofOperands (hvalues : values.length ≤ 2) :
    addValue op (ofOperands op values names) w = .ok y ↔
      ∃ v, Value.parse? w = some v ∧ values.length < 2 ∧
        ofOperands op (values ++ [v]) names = y := by
  rw [addValue]
  cases Value.parse? w with
  | none => simp
  | some v =>
    rcases values with - | ⟨u, - | ⟨u', - | ⟨u'', values⟩⟩⟩
    · simp [ofOperands]
    · simp [ofOperands]
    · simp [ofOperands]
    · simp at hvalues

theorem addName_ofOperands (hnames : names.length ≤ 2) (hne : ∀ n ∈ names, n ≠ []) :
    addName op (ofOperands op values names) w = .ok y ↔
      names.length < 2 ∧ ofOperands op values (names ++ [w]) = y := by
  rw [addName]
  rcases names with - | ⟨n, - | ⟨n', - | ⟨n'', names⟩⟩⟩
  · simp [ofOperands]
  · have hn : n ≠ [] := hne n (by simp)
    simp [ofOperands, hn]
  · have hn : n ≠ [] := hne n (by simp)
    have hn' : n' ≠ [] := hne n' (by simp)
    simp [ofOperands, hn, hn']
  · simp at hnames

/-- What a word adds: a number to the numbers or a name to the names. -/
theorem addOperand_ofOperands (hvalues : values.length ≤ 2) (hnames : names.length ≤ 2)
    (hne : ∀ n ∈ names, n ≠ []) : addOperand op (ofOperands op values names) w = .ok y ↔
      isNumeral w = true ∧ (∃ v, Value.parse? w = some v ∧ values.length < 2 ∧
        ofOperands op (values ++ [v]) names = y) ∨
      isNumeral w = false ∧ names.length < 2 ∧ ofOperands op values (names ++ [w]) = y := by
  rw [addOperand, startsNumber_eq]
  cases isNumeral w with
  | true => simp [addValue_ofOperands hvalues]
  | false => simp [addName_ofOperands hnames hne]

/-- What some words add. The induction is on the words, with what was read before them general. -/
theorem addOperands_ofOperands {words : List Text} (hwords : ∀ w ∈ words, w ≠ [])
    (hvalues : values.length ≤ 2) (hnames : names.length ≤ 2) (hne : ∀ n ∈ names, n ≠ []) :
    addOperands op (ofOperands op values names) words = .ok y ↔
      ∃ more, List.Forall₂ (Value.parse? · = some ·) (words.filter isNumeral) more ∧
        values.length + more.length ≤ 2 ∧
        names.length + (words.filter (!isNumeral ·)).length ≤ 2 ∧
        ofOperands op (values ++ more) (names ++ words.filter (!isNumeral ·)) = y := by
  induction words generalizing values names with
  | nil => simp [addOperands_nil, hvalues, hnames]
  | cons w words ih =>
    obtain ⟨hw, hwords⟩ := List.forall_mem_cons.mp hwords
    rw [addOperands_cons, bind_eq_ok_iff]
    simp only [addOperand_ofOperands hvalues hnames hne]
    cases hnumeral : isNumeral w with
    | true =>
      rw [List.filter_cons_of_pos hnumeral, List.filter_cons_of_neg (by simp [hnumeral])]
      have hlonger (v : Value) (hless : values.length < 2) : (values ++ [v]).length ≤ 2 := by
        rw [List.length_append]
        exact hless
      have hread (v : Value) (hless : values.length < 2) := ih hwords (hlonger v hless) hnames hne
      simp only [List.length_append, List.length_singleton, List.append_assoc] at hread
      constructor
      · rintro ⟨z, ⟨-, v, hv, hless, rfl⟩ | ⟨hfalse, -⟩, hrest⟩
        · obtain ⟨more, hmore, hlength, hadded⟩ := (hread v hless).mp hrest
          exact ⟨v :: more, .cons hv hmore, by rw [List.length_cons]; omega, hadded⟩
        · cases hfalse
      · rintro ⟨more, hmore, hlength, hadded⟩
        obtain ⟨v, rest, hv, hrest, rfl⟩ := List.forall₂_cons_left_iff.mp hmore
        rw [List.length_cons] at hlength
        exact ⟨_, .inl ⟨rfl, v, hv, by omega, rfl⟩,
          (hread v (by omega)).mpr ⟨rest, hrest, by omega, hadded⟩⟩
    | false =>
      rw [List.filter_cons_of_neg (by simp [hnumeral]),
        List.filter_cons_of_pos (by simp [hnumeral])]
      have hlonger (hless : names.length < 2) : (names ++ [w]).length ≤ 2 := by
        rw [List.length_append]
        exact hless
      have hread (hless : names.length < 2) := ih hwords hvalues (hlonger hless)
        (List.forall_mem_append.mpr ⟨hne, List.forall_mem_singleton.mpr hw⟩)
      simp only [List.length_append, List.length_singleton, List.append_assoc] at hread
      rw [List.length_cons]
      constructor
      · rintro ⟨z, ⟨htrue, -⟩ | ⟨-, hless, rfl⟩, hrest⟩
        · cases htrue
        · obtain ⟨more, hmore, hlength, hcount, hadded⟩ := (hread hless).mp hrest
          exact ⟨more, hmore, hlength, by omega, hadded⟩
      · rintro ⟨more, hmore, hlength, hcount, hadded⟩
        exact ⟨_, .inr ⟨rfl, by omega, rfl⟩,
          (hread (by omega)).mpr ⟨more, hmore, hlength, by omega, hadded⟩⟩

end Operands

/-! ### Whole lines -/

section Line

variable {t u : Text} {op : Opcode} {x : Instr}

theorem namesOpcode_iff : NamesOpcode t op ↔ Opcode.parse? (opcodeText t) = some op := by
  rw [Opcode.parse?_eq_some_iff, NamesOpcode, eq_comm]

theorem parseOperands_eq_ok_iff {rest : Text} : parseOperands op rest = .ok x ↔
    addOperands op { op := .known op } rest.words = .ok x ∧ x.fault? = none := by
  constructor
  · exact of_parseOperands_eq_ok
  · rintro ⟨hadd, hfault⟩
    rw [parseOperands, hadd]
    simp [hfault, bind, Except.bind]

/-- The grammar: an opcode with at most two numbers and at most two names, which give it the operand
it needs. -/
def Reads (t : Text) (x : Instr) : Prop :=
  ∃ op values, NamesOpcode t op ∧
    List.Forall₂ (Value.parse? · = some ·) (numerals t) values ∧ (numerals t).length ≤ 2 ∧
    (names t).length ≤ 2 ∧ x = ofOperands op values (names t) ∧ x.fault? = none

theorem parse_eq_ok_iff (hop : NamesOpcode t op) (htakes : takesOperands op) :
    parse t = .ok x ↔ ∃ values,
      List.Forall₂ (Value.parse? · = some ·) (numerals t) values ∧ (numerals t).length ≤ 2 ∧
      (names t).length ≤ 2 ∧ x = ofOperands op values (names t) ∧ x.fault? = none := by
  have hcut : t.trim.cut Text.space = (opcodeText t, (t.trim.cut Text.space).2) := rfl
  have hstart : ({ op := .known op } : Instr) = ofOperands op [] [] := rfl
  have hwords : ∀ w ∈ operandWords t, w ≠ [] := fun w hw => (Text.isWord_of_mem_words hw).1
  rw [parse_of_takesOperands hcut (namesOpcode_iff.mp hop) htakes, parseOperands_eq_ok_iff, hstart,
    ← operandWords, addOperands_ofOperands hwords (Nat.zero_le _) (Nat.zero_le _) (by simp)]
  simp only [List.length_nil, Nat.zero_add, List.nil_append]
  constructor
  · rintro ⟨⟨values, hvalues, hnumerals, hnames, rfl⟩, hfault⟩
    exact ⟨values, hvalues, hvalues.length_eq ▸ hnumerals, hnames, rfl, hfault⟩
  · rintro ⟨values, hvalues, hnumerals, hnames, rfl, hfault⟩
    exact ⟨⟨values, hvalues, hvalues.length_eq ▸ hnumerals, hnames, rfl⟩, hfault⟩

theorem parse_eq_error_of_unknown (h : ∀ op, ¬ NamesOpcode t op) :
    parse t = .error (.unknownOpcode (opcodeText t)) := by
  have hnone : Opcode.parse? (t.trim.cut Text.space).1 = none := by
    rw [Option.eq_none_iff_forall_ne_some]
    exact fun op hop => h op (namesOpcode_iff.mpr hop)
  rw [parse]
  dsimp only
  rw [hnone]
  rfl

theorem parse_eq_ok_iff_reads (htakes : ∀ op, NamesOpcode t op → takesOperands op) :
    parse t = .ok x ↔ Reads t x := by
  by_cases hknown : ∃ op, NamesOpcode t op
  · obtain ⟨op, hop⟩ := hknown
    rw [parse_eq_ok_iff hop (htakes op hop)]
    constructor
    · rintro ⟨values, hread⟩
      exact ⟨op, values, hop, hread⟩
    · rintro ⟨op', values, hop', hread⟩
      obtain rfl : op = op' :=
        Option.some.inj ((namesOpcode_iff.mp hop).symm.trans (namesOpcode_iff.mp hop'))
      exact ⟨values, hread⟩
  · rw [parse_eq_error_of_unknown (not_exists.mp hknown)]
    refine iff_of_false (by simp) ?_
    rintro ⟨op, values, hop, -⟩
    exact hknown ⟨op, hop⟩

/-- Lines of the same parts, in whatever order, are read alike. -/
theorem reads_congr (hop : ∀ op, NamesOpcode t op ↔ NamesOpcode u op)
    (hnumerals : numerals t = numerals u) (hnames : names t = names u) : Reads t x ↔ Reads u x := by
  simp only [Reads, hop, hnumerals, hnames]

theorem fault?_label {sym : Text} (hsym : ¬ sym.isEmpty = true) :
    fault? { op := .known .label, sym } = none := by
  have hoperand : Opcode.label.operand = .name := rfl
  rw [fault?]
  dsimp only
  rw [hoperand, hasOperand]
  simp [hsym]

theorem fault?_of_parse (h : parse t = .ok x) : x.fault? = none := by
  unfold parse at h
  dsimp only at h
  split at h
  · cases h
  · split_ifs at h with hsym
    cases h
    exact fault?_label hsym
  · cases h
    rfl
  · cases h
    rfl
  · exact (of_parseOperands_eq_ok h).2

end Line

/-- A line is read exactly if it follows the grammar, provided that its opcode does not take the
rest of the line as a name. So nothing but the opcode, the numbers in their order and the names in
theirs decides about it. Whatever is read has the operand it needs. -/
theorem parse_follows_grammar :
    (∀ t, (∀ op, NamesOpcode t op → takesOperands op) → ∀ x, parse t = .ok x ↔ Reads t x) ∧
    (∀ t u, (∀ op, NamesOpcode t op → takesOperands op) →
      (∀ op, NamesOpcode t op ↔ NamesOpcode u op) → numerals t = numerals u → names t = names u →
      ∀ x, parse t = .ok x ↔ parse u = .ok x) ∧
    ∀ t x, parse t = .ok x → x.fault? = none := by
  refine ⟨fun t htakes x => parse_eq_ok_iff_reads htakes,
    fun t u htakes hop hnumerals hnames x => ?_, fun t x => fault?_of_parse⟩
  have htakes' : ∀ op, NamesOpcode u op → takesOperands op := fun op h => htakes op ((hop op).mpr h)
  rw [parse_eq_ok_iff_reads htakes, parse_eq_ok_iff_reads htakes',
    reads_congr hop hnumerals hnames]

/-- The same numbers and names in two orders. -/
theorem parse_follows_grammar_interleaved :
    let t := Text.ofString "inc_var_f 0x10 héllo -1.5 b"
    let u := Text.ofString " Inc_Var_F  héllo b 0x10 -1.5 "
    let x : Instr :=
      { op := .known .incVarF, arg := some (.int 16), arg2 := some (.float ⟨0xbff8000000000000⟩),
        sym := Text.ofString "héllo", sym2 := Text.ofString "b" }
    (∀ op, NamesOpcode t op → takesOperands op) ∧ Reads t x ∧ parse u = .ok x ∧
      x.fault? = none := by
  intro t u x
  obtain ⟨hgrammar, hsame, hcomplete⟩ := parse_follows_grammar
  have hparse : parse t = .ok x := by decide +kernel
  have hop : Opcode.parse? (opcodeText t) = some .incVarF := by decide +kernel
  have hupper : (opcodeText t).upper = (opcodeText u).upper := by decide +kernel
  have htakes : ∀ op, NamesOpcode t op → takesOperands op := by
    intro op h
    obtain rfl := Option.some.inj (hop.symm.trans (namesOpcode_iff.mp h))
    simp [takesOperands]
  have hboth : ∀ op, NamesOpcode t op ↔ NamesOpcode u op := by
    intro op
    rw [NamesOpcode, NamesOpcode, hupper]
  exact ⟨htakes, (hgrammar t htakes x).mp hparse,
    (hsame t u htakes hboth (by decide +kernel) (by decide +kernel) x).mp hparse,
    hcomplete t x hparse⟩

end Instr

end Stack6502
