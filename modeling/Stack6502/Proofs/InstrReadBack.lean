import Stack6502.Program.InstrText
import Stack6502.Proofs.FloatReadBack
import Stack6502.Proofs.NameText
import Stack6502.Proofs.Words

/-!
# Instructions read back

An instruction that was read is read again from its listing. Names and values may interleave in what
is read. In the listing the names stand first, and both keep their order.
-/
namespace Stack6502

/-! ### Opcodes by name -/

theorem Text.ofString_eq_data (s : String) : ofString s = s.toByteArray.data.toList := by
  have hbytes : s.toByteArray = (s.toList.flatMap String.utf8EncodeChar).toByteArray := by
    conv_lhs => rw [← String.ofList_toList (s := s), String.toByteArray_ofList]
    rfl
  rw [hbytes, ofString]
  simp

namespace Opcode

variable {t : Text} {op : Opcode}

def bytesNumber (t : Text) : Nat := t.foldl (fun n b => 256 * n + b.toNat) 0

def isDistinct : List Nat → Bool
  | [] => true
  | n :: ns => ns.all (fun m => !Nat.beq n m) && isDistinct ns

theorem nodup_of_isDistinct {ns : List Nat} (h : isDistinct ns) : ns.Nodup := by
  induction ns with
  | nil => exact List.nodup_nil
  | cons n ns ih =>
    obtain ⟨hn, hns⟩ := Bool.and_eq_true_iff.mp h
    refine List.nodup_cons.mpr ⟨fun hmem => ?_, ih hns⟩
    simpa using List.all_eq_true.mp hn n hmem

-- One look at the names for all that is needed of them, by stored bytes and numbers, because
-- characters and proofs of inequality are slow to evaluate.
theorem names_spec : (∀ op ∈ all, Text.ofString op.name ≠ [] ∧
    (Text.ofString op.name).all fun b => 0x20 < b.toNat ∧ b.toNat < 97) ∧
    (all.map fun op => bytesNumber (Text.ofString op.name)).Nodup := by
  simp only [Text.ofString_eq_data]
  exact ⟨by decide +kernel, nodup_of_isDistinct (by decide +kernel)⟩

/-- Names are digits, capital letters and underscores. -/
theorem name_spec (h : op ∈ all) : Text.ofString op.name ≠ [] ∧
    ∀ b ∈ Text.ofString op.name, 0x20 < b.toNat ∧ b.toNat < 97 := by
  simpa using names_spec.1 op h

theorem mem_of_parse? (h : parse? t = some op) : op ∈ all := by
  unfold parse? at h
  exact List.mem_of_find?_eq_some h

theorem upperChar_of_lt : ∀ n < 97, Text.upperChar (Char.ofNat n) = Char.ofNat n := by decide

theorem upper_of_lt (h : ∀ b ∈ t, b.toNat < 97) : t.upper = t := by
  have hascii : ∀ b ∈ t, b.toNat < 128 := fun b hb => (h b hb).trans (by decide)
  have hchars : t.chars = t.map fun b => Char.ofNat b.toNat := by
    rw [Text.chars, Text.pieces_ascii hascii, List.map_map]
    rfl
  have hupper : ∀ b ∈ t, Text.ofChar (Text.upperChar (Char.ofNat b.toNat)) = [b] := fun b hb => by
    rw [upperChar_of_lt b.toNat (h b hb)]
    exact Text.utf8EncodeChar_one (hascii b hb)
  rw [Text.upper, hchars, List.flatMap_map, List.flatMap_congr hupper, List.flatMap_singleton']

theorem isWord_name (h : op ∈ all) : (Text.ofString op.name).IsWord := by
  obtain ⟨hne, hname⟩ := name_spec h
  refine Text.isWord_of_visible hne fun b hb => ?_
  have := hname b hb
  omega

theorem space_notMem_name (h : op ∈ all) : Text.space ∉ Text.ofString op.name := by
  intro hmem
  exact absurd ((name_spec h).2 _ hmem).1 (by decide)

/-- An opcode that was found by some name is found by its own. -/
theorem parse?_name (h : parse? t = some op) : parse? op.name = some op := by
  have hname : Text.ofString op.name = t.upper := by
    simpa using List.find?_some h
  have hupper : (Text.ofString op.name).upper = t.upper := by
    rw [← hname]
    exact upper_of_lt fun b hb => ((name_spec (mem_of_parse? h)).2 b hb).2
  have heq : parse? op.name = parse? t := by rw [parse?, parse?, hupper]
  rw [heq, h]

end Opcode

/-! ### Values among the operands -/

section Values

variable {t : Text} {v : Value}

open IntLiteral

theorem isWord_signed {b : UInt8} (negative : Bool) (h : ∀ c ∈ b :: t, isNumeric c) :
    (signed negative (b :: t)).IsWord := by
  refine Text.isWord_of_visible ?_ fun c hc => ?_
  · cases negative <;> simp [signed]
  · have := isNumeric_iff.mp (isNumeric_signed negative h c hc)
    omega

theorem startsNumber_signed {b : UInt8} (hb : isDigit b) (negative : Bool) (t : Text) :
    Instr.startsNumber (signed negative (b :: t)) := by
  cases negative with
  | false => simp [signed, Instr.startsNumber, hb]
  | true => rfl

/-- A value is listed as a word that starts like a number. -/
theorem Value.listing_spec (hv : v.isNumber) :
    v.listing.IsWord ∧ Instr.startsNumber v.listing := by
  cases v with
  | int v =>
    obtain ⟨b, t, ht, hb⟩ := exists_ofNat_eq_cons v.toInt.natAbs
    have hnumeric : ∀ c ∈ b :: t, isNumeric c := fun c hc =>
      isNumeric_of_isDigit (isDigits_ofNat v.toInt.natAbs c (ht ▸ hc))
    rw [Value.listing, ofInt_eq_signed, ht]
    exact ⟨isWord_signed _ hnumeric, startsNumber_signed hb _ t⟩
  | float x =>
    cases hfinite : x.isFinite with
    | true =>
      obtain ⟨p, hp, hlisting, -⟩ := Double.exists_listing_eq hfinite
      obtain ⟨b, t, ht, hb⟩ := hp.exists_text_eq_cons
      have hnumeric := hp.isNumeric_text
      rw [ht] at hnumeric
      rw [hlisting, ht]
      exact ⟨isWord_signed _ hnumeric, startsNumber_signed hb _ t⟩
    | false =>
      have hnan : x.isNaN = false := by simpa [isNumber] using hv
      have hminus : Text.ofString "-Inf" = [45, 73, 110, 102] := rfl
      have hplus : Text.ofString "+Inf" = [43, 73, 110, 102] := rfl
      rw [(Double.listing_infinite (Double.isInfinite_of_isNaN hfinite hnan)).1]
      split
      · exact ⟨Text.isWord_of_visible (by decide) (by simp [hminus]), by decide⟩
      · exact ⟨Text.isWord_of_visible (by decide) (by simp [hplus]), by decide⟩

theorem toNat_of_startsNumber {b : UInt8} (h : Instr.startsNumber (b :: t)) : b.toNat < 58 := by
  have hmarks : ("-+$%." : Text).all (·.toNat < 58) := by decide
  rcases Bool.or_eq_true_iff.mp h with hdigit | hmark
  · have := isDigit_iff.mp hdigit
    omega
  · simpa using List.all_eq_true.mp hmarks b (List.contains_iff_mem.mp hmark)

/-- A word that starts like a number is not the one for what is no number. -/
theorem Value.isNumber_of_parse? (h : Value.parse? t = some v) (hstart : Instr.startsNumber t) :
    v.isNumber := by
  cases v with
  | int v => rfl
  | float x =>
    have hnan : t.map lowerByte ≠ Text.ofString "nan" := by
      cases t with
      | nil => exact absurd hstart Bool.false_ne_true
      | cons b t =>
        intro hword
        have hb : lowerByte b = Text.byte 'n' := (List.cons.inj hword).1
        have hlt := toNat_of_startsNumber hstart
        rw [lowerByte_eq_self (.inl (by omega))] at hb
        rw [hb] at hlt
        exact absurd hlt (by decide)
    rw [isNumber, FloatLiteral.isNaN_of_read (read_of_parse? h) hnan]
    rfl

end Values

namespace Instr

/-! ### Operands one after another -/

def IsName (t : Text) : Prop := t.IsWord ∧ startsNumber t = false

/-- What reading operands can lead to: the first name and the first value come first. -/
structure IsRead (op : Opcode) (x : Instr) : Prop where
  op_eq : x.op = .known op
  sym : x.sym = [] ∨ IsName x.sym
  sym2 : x.sym2 = [] ∨ x.sym ≠ [] ∧ IsName x.sym2
  arg : ∀ v ∈ x.arg, v.isNumber
  arg2 : ∀ v ∈ x.arg2, x.arg ≠ none ∧ v.isNumber

def addOperand (op : Opcode) (x : Instr) (w : Text) : Except InstrFault Instr :=
  if startsNumber w then addValue op x w else addName op x w

theorem addOperands_nil (op : Opcode) (x : Instr) : addOperands op x [] = .ok x := rfl

theorem addOperands_cons (op : Opcode) (x : Instr) (w : Text) (ws : List Text) :
    addOperands op x (w :: ws) = addOperand op x w >>= fun y => addOperands op y ws := by
  rw [addOperands, addOperand]
  split
  · rfl
  · rfl

section Step

variable {op : Opcode} {x y : Instr} {w : Text}

theorem isRead_start (op : Opcode) : IsRead op { op := .known op } :=
  ⟨rfl, .inl rfl, .inl rfl, by simp, by simp⟩

theorem IsRead.addName (h : x.IsRead op) (hw : IsName w) (hadd : addName op x w = .ok y) :
    y.IsRead op := by
  unfold Instr.addName at hadd
  split_ifs at hadd with hsym hsym2
  · cases hadd
    refine ⟨h.op_eq, .inr hw, ?_, h.arg, h.arg2⟩
    exact .inl (h.sym2.resolve_right fun hboth => hboth.1 (List.isEmpty_iff.mp hsym))
  · cases hadd
    exact ⟨h.op_eq, h.sym, .inr ⟨fun hnil => hsym (List.isEmpty_iff.mpr hnil), hw⟩, h.arg, h.arg2⟩

theorem IsRead.addValue (h : x.IsRead op) (hw : startsNumber w) (hadd : addValue op x w = .ok y) :
    y.IsRead op := by
  unfold Instr.addValue at hadd
  cases hparse : Value.parse? w with
  | none =>
    rw [hparse] at hadd
    cases hadd
  | some v =>
    have hv := Value.isNumber_of_parse? hparse hw
    rw [hparse] at hadd
    dsimp only at hadd
    split at hadd
    · next hnone =>
      cases hadd
      refine ⟨h.op_eq, h.sym, h.sym2, by simpa using hv, fun u hu => ?_⟩
      exact absurd hnone (h.arg2 u hu).1
    · next u hsome hnone =>
      cases hadd
      exact ⟨h.op_eq, h.sym, h.sym2, h.arg, by simpa [hsome] using hv⟩
    · cases hadd

theorem IsRead.addOperand (h : x.IsRead op) (hw : w.IsWord) (hadd : addOperand op x w = .ok y) :
    y.IsRead op := by
  unfold Instr.addOperand at hadd
  split_ifs at hadd with hstart
  · exact h.addValue hstart hadd
  · exact h.addName ⟨hw, by simpa using hstart⟩ hadd

theorem IsRead.addOperands {ws : List Text} (h : x.IsRead op) (hws : ∀ w ∈ ws, w.IsWord)
    (hadd : addOperands op x ws = .ok y) : y.IsRead op := by
  induction ws generalizing x with
  | nil =>
    cases hadd
    exact h
  | cons w ws ih =>
    obtain ⟨hw, hws⟩ := List.forall_mem_cons.mp hws
    rw [addOperands_cons] at hadd
    cases hstep : Instr.addOperand op x w with
    | error fault =>
      rw [hstep] at hadd
      cases hadd
    | ok z =>
      rw [hstep] at hadd
      exact ih (h.addOperand hw hstep) hws hadd

end Step

/-! ### Reading the listing -/

def operandTexts (x : Instr) : List Text :=
  [x.sym, x.sym2].filter (!·.isEmpty) ++ [x.arg, x.arg2].filterMap (·.map Value.listing)

section Listing

variable {op : Opcode} {x : Instr}

theorem operandsListing_eq (x : Instr) :
    x.operandsListing = x.operandTexts.flatMap (Text.space :: ·) := rfl

theorem IsRead.isWord_operandTexts (h : x.IsRead op) : ∀ w ∈ x.operandTexts, w.IsWord := by
  intro w hw
  rcases List.mem_append.mp hw with hname | hvalue
  · obtain ⟨hmem, hfilter⟩ := List.mem_filter.mp hname
    have hne : w ≠ [] := by simpa using hfilter
    rcases List.mem_pair.mp hmem with rfl | rfl
    · exact (h.sym.resolve_left hne).1
    · exact (h.sym2.resolve_left hne).2.1
  · obtain ⟨arg, hmem, hlisting⟩ := List.mem_filterMap.mp hvalue
    obtain ⟨v, rfl, rfl⟩ := Option.map_eq_some_iff.mp hlisting
    rcases List.mem_pair.mp hmem with harg | harg
    · exact (Value.listing_spec (h.arg v harg.symm)).1
    · exact (Value.listing_spec (h.arg2 v harg.symm).2).1

theorem addOperands_append (op : Opcode) (x : Instr) (us ws : List Text) :
    addOperands op x (us ++ ws) = addOperands op x us >>= fun y => addOperands op y ws := by
  induction us generalizing x with
  | nil => rfl
  | cons u us ih => simp only [List.cons_append, addOperands_cons, ih, bind_assoc]

theorem IsRead.addOperands_names (h : x.IsRead op) :
    Instr.addOperands op { op := .known op } ([x.sym, x.sym2].filter (!·.isEmpty)) =
      .ok { op := .known op, sym := x.sym, sym2 := x.sym2 } := by
  by_cases hsym : x.sym = []
  · have hsym2 : x.sym2 = [] := h.sym2.resolve_right fun hboth => hboth.1 hsym
    simp [hsym, hsym2, addOperands_nil]
  · have hname := (h.sym.resolve_left hsym).2
    by_cases hsym2 : x.sym2 = []
    · simp [hsym, hsym2, addOperands_cons, addOperands_nil, Instr.addOperand, hname, Instr.addName,
        bind, Except.bind]
    · have hname2 := (h.sym2.resolve_left hsym2).2.2
      simp [hsym, hsym2, addOperands_cons, addOperands_nil, Instr.addOperand, hname, hname2,
        Instr.addName, bind, Except.bind]

/-- A listed value is the first one, or else the second. -/
theorem addOperand_listing {v : Value} (hv : v.isNumber) (hmin : v ≠ .int Int64.minValue) :
    (x.arg = none → addOperand op x v.listing = .ok { x with arg := some v }) ∧
      ∀ u, x.arg = some u → x.arg2 = none →
        addOperand op x v.listing = .ok { x with arg2 := some v } := by
  have hadd : addOperand op x v.listing = addValue op x v.listing :=
    if_pos (Value.listing_spec hv).2
  rw [hadd, addValue, Value.parse?_listing hv hmin]
  constructor
  · intro harg
    simp [harg]
  · intro u harg harg2
    simp [harg, harg2]

theorem IsRead.addOperands_values (h : x.IsRead op) (harg : x.arg ≠ some (.int Int64.minValue))
    (harg2 : x.arg2 ≠ some (.int Int64.minValue)) (sym sym2 : Text) :
    Instr.addOperands op { op := .known op, sym, sym2 }
      ([x.arg, x.arg2].filterMap (·.map Value.listing)) =
      .ok { op := .known op, arg := x.arg, arg2 := x.arg2, sym, sym2 } := by
  cases hx : x.arg with
  | none =>
    have hx2 : x.arg2 = none := by
      rw [Option.eq_none_iff_forall_not_mem]
      exact fun v hv => (h.arg2 v hv).1 hx
    simp [hx2, addOperands_nil]
  | some v =>
    have hfirst : Instr.addOperand op { op := .known op, sym, sym2 } v.listing =
        .ok { op := .known op, arg := some v, sym, sym2 } :=
      (addOperand_listing (h.arg v hx) fun heq => harg (heq ▸ hx)).1 rfl
    cases hx2 : x.arg2 with
    | none => simp [addOperands_cons, addOperands_nil, hfirst, bind, Except.bind]
    | some u =>
      have hsecond : Instr.addOperand op { op := .known op, arg := some v, sym, sym2 } u.listing =
          .ok { op := .known op, arg := some v, arg2 := some u, sym, sym2 } :=
        (addOperand_listing (h.arg2 u hx2).2 fun heq => harg2 (heq ▸ hx2)).2 v rfl rfl
      simp [addOperands_cons, addOperands_nil, hfirst, hsecond, bind, Except.bind]

/-- The operands of an instruction that was read fill it in again. -/
theorem IsRead.addOperands_operandTexts (h : x.IsRead op)
    (harg : x.arg ≠ some (.int Int64.minValue)) (harg2 : x.arg2 ≠ some (.int Int64.minValue)) :
    Instr.addOperands op { op := .known op } x.operandTexts = .ok x := by
  have hvalues := h.addOperands_values harg harg2 x.sym x.sym2
  rw [← h.op_eq] at hvalues
  rw [operandTexts, addOperands_append, h.addOperands_names, ← h.op_eq]
  exact hvalues

end Listing

/-! ### The instruction as a whole -/

section Whole

variable {op : Opcode} {x : Instr} {t name : Text}

/-- The opcodes that do not take the rest of the line as their name. -/
def takesOperands (op : Opcode) : Prop := op ≠ .label ∧ op ≠ .line ∧ op ≠ .inlineAssembly

theorem parse_of_takesOperands {rest : Option Text} (hcut : t.trim.cut Text.space = (name, rest))
    (hop : Opcode.parse? name = some op) (h : takesOperands op) :
    parse t = parseOperands op (rest.getD []) := by
  obtain ⟨hlabel, hline, hasm⟩ := h
  unfold parse
  rw [hcut]
  dsimp only
  rw [hop]
  split
  · next heq => cases heq
  · next heq => exact absurd (Option.some.inj heq) hlabel
  · next heq => exact absurd (Option.some.inj heq) hline
  · next heq => exact absurd (Option.some.inj heq) hasm
  · next heq =>
    cases heq
    rfl

theorem dropLast_listingLine (t : Text) : (listingLine 0 t).dropLast = t := List.dropLast_concat

theorem text_of_takesOperands (hx : x.op = .known op) (h : takesOperands op) :
    x.text = Text.ofString op.name ++ x.operandsListing := by
  obtain ⟨hlabel, hline, hasm⟩ := h
  unfold text listing
  rw [hx]
  split
  · next heq => exact absurd (Coded.known.inj heq) hlabel
  · next heq => exact absurd (Coded.known.inj heq) hasm
  · next heq => exact absurd (Coded.known.inj heq) hline
  · exact dropLast_listingLine _

theorem of_parseOperands_eq_ok {rest : Text} (h : parseOperands op rest = .ok x) :
    addOperands op { op := .known op } rest.words = .ok x ∧ x.fault? = none := by
  unfold parseOperands at h
  cases hadd : addOperands op { op := .known op } rest.words with
  | error fault =>
    rw [hadd] at h
    cases h
  | ok y =>
    rw [hadd] at h
    cases hfault : y.fault? with
    | some fault => simp [hfault, bind, Except.bind] at h
    | none =>
      simp only [hfault, bind, Except.bind, Except.ok.injEq] at h
      subst h
      exact ⟨rfl, hfault⟩

theorem isRead_of_parseOperands {rest : Text} (h : parseOperands op rest = .ok x) : x.IsRead op :=
  (isRead_start op).addOperands (fun _ hw => Text.isWord_of_mem_words hw)
    (of_parseOperands_eq_ok h).1

/-- Words with a space before each follow the opcode. -/
theorem exists_cut_words (hname : Text.space ∉ name) {ws : List Text} (hws : ∀ w ∈ ws, w.IsWord) :
    ∃ rest, (name ++ ws.flatMap (Text.space :: ·)).cut Text.space = (name, rest) ∧
      (rest.getD []).words = ws := by
  have hwords := Text.words_flatMap_space hws
  cases ws with
  | nil =>
    rw [List.flatMap_nil, List.append_nil]
    exact ⟨none, Text.cut_of_notMem hname, rfl⟩
  | cons w ws =>
    rw [List.flatMap_cons, List.cons_append] at hwords ⊢
    exact ⟨_, Text.cut_append hname _, (Text.words_space_cons _).symm.trans hwords⟩

/-- An opcode and the words after it are read as its operands. -/
theorem exists_parse_words (hop : Opcode.parse? name = some op) (htakes : takesOperands op)
    {ws : List Text} (hws : ∀ w ∈ ws, w.IsWord) : ∃ rest, rest.words = ws ∧
      parse (Text.ofString op.name ++ ws.flatMap (Text.space :: ·)) = parseOperands op rest := by
  have hmem := Opcode.mem_of_parse? hop
  have hname := Opcode.isWord_name hmem
  obtain ⟨after, hcut, hwords⟩ := exists_cut_words (Opcode.space_notMem_name hmem) hws
  rw [← (hname.isTrimmed.append_words hname.1 hws).trim_eq] at hcut
  exact ⟨_, hwords, parse_of_takesOperands hcut (Opcode.parse?_name hop) htakes⟩

theorem IsRead.parse_listing (h : x.IsRead op) (hop : Opcode.parse? name = some op)
    (htakes : takesOperands op) (hfault : x.fault? = none)
    (harg : x.arg ≠ some (.int Int64.minValue)) (harg2 : x.arg2 ≠ some (.int Int64.minValue)) :
    parse x.text = .ok x := by
  obtain ⟨rest, hwords, hparse⟩ := exists_parse_words hop htakes h.isWord_operandTexts
  rw [text_of_takesOperands h.op_eq htakes, operandsListing_eq, hparse, parseOperands, hwords,
    h.addOperands_operandTexts harg harg2]
  simp [hfault, bind, Except.bind]

theorem parse_text_of_operands {rest : Text} (hop : Opcode.parse? name = some op)
    (htakes : takesOperands op) (h : parseOperands op rest = .ok x)
    (harg : x.arg ≠ some (.int Int64.minValue)) (harg2 : x.arg2 ≠ some (.int Int64.minValue)) :
    parse x.text = .ok x :=
  (isRead_of_parseOperands h).parse_listing hop htakes (of_parseOperands_eq_ok h).2 harg harg2

/-- An opcode and the rest of its line. -/
theorem cut_trim_append (hmem : op ∈ Opcode.all) (h : t.IsTrimmed) (hne : t ≠ []) :
    (Text.ofString op.name ++ Text.space :: t).trim.cut Text.space =
      (Text.ofString op.name, some t) := by
  have hname := Opcode.isWord_name hmem
  rw [(hname.isTrimmed.append_space h hname.1 hne).trim_eq,
    Text.cut_append (Opcode.space_notMem_name hmem)]

theorem parse_of_line {rest : Option Text} (hcut : t.trim.cut Text.space = (name, rest))
    (hop : Opcode.parse? name = some .line) :
    parse t = .ok { op := .known .line, sym := (rest.getD []).trim } := by
  unfold parse
  rw [hcut]
  dsimp only
  rw [hop]

/-- What follows the opcode of a source line is the trimmed rest of the line. -/
theorem parse_text_of_line (hop : Opcode.parse? name = some .line) (sym : Text) :
    parse (text { op := .known .line, sym := sym.trim }) =
      .ok { op := .known .line, sym := sym.trim } := by
  have hmem := Opcode.mem_of_parse? hop
  have htrimmed := Text.isTrimmed_trim sym
  have htext : text { op := .known .line, sym := sym.trim } =
      Text.ofString (Opcode.name .line) ++ Text.space :: sym.trim :=
    dropLast_listingLine _
  rw [htext]
  by_cases hne : sym.trim = []
  -- Then the space after the opcode ends the line and is trimmed.
  · rw [hne]
    decide
  · rw [parse_of_line (cut_trim_append hmem htrimmed hne) (Opcode.parse?_name hop),
      Option.getD_some, htrimmed.trim_eq]

/-- The ways an instruction is read. -/
theorem of_parse_eq_ok (h : parse t = .ok x) : ∃ name op, Opcode.parse? name = some op ∧
    (x.op = .known .label ∨ x.op = .known .inlineAssembly ∨
      (op = .line ∧ ∃ sym : Text, x = { op := .known .line, sym := sym.trim }) ∨
      takesOperands op ∧ ∃ rest, parseOperands op rest = .ok x) := by
  unfold parse at h
  dsimp only at h
  refine ⟨(t.trim.cut Text.space).1, ?_⟩
  split at h
  · cases h
  · next hop =>
    split_ifs at h
    cases h
    exact ⟨_, hop, .inl rfl⟩
  · next hop =>
    cases h
    exact ⟨_, hop, .inr (.inr (.inl ⟨rfl, _, rfl⟩))⟩
  · next hop =>
    cases h
    exact ⟨_, hop, .inr (.inl rfl)⟩
  · next op hlabel hline hasm hop =>
    exact ⟨_, hop, .inr (.inr (.inr ⟨⟨hlabel, hline, hasm⟩, _, h⟩))⟩

/-- An instruction that was read is read again from its listing, with the same names, the same
values and their kinds. A label and inline assembly are listed in another form, and the digits of
the smallest integer are read as a float. -/
theorem parse_text (h : parse t = .ok x) (hlabel : x.op ≠ .known .label)
    (hasm : x.op ≠ .known .inlineAssembly) (harg : x.arg ≠ some (.int Int64.minValue))
    (harg2 : x.arg2 ≠ some (.int Int64.minValue)) : parse x.text = .ok x := by
  obtain ⟨name, op, hop, hx | hx | ⟨rfl, sym, rfl⟩ | ⟨htakes, rest, hx⟩⟩ := of_parse_eq_ok h
  · exact absurd hx hlabel
  · exact absurd hx hasm
  · exact parse_text_of_line hop sym
  · exact parse_text_of_operands hop htakes hx harg harg2

/-- Names and values interleave, in other bases and notations than those of the listing. -/
theorem parse_text_interleaved :
    let t := Text.ofString " Inc_Var_F 0x10  héllo -100.e-9 b "
    let x : Instr :=
      { op := .known .incVarF, arg := some (.int 16), arg2 := some (.float ⟨0xbe7ad7f29abcaf48⟩),
        sym := Text.ofString "héllo", sym2 := Text.ofString "b" }
    parse t = .ok x ∧ x.text = Text.ofString "INC_VAR_F héllo b 16 -1e-07" ∧
      parse x.text = .ok x := by
  intro t x
  have hparse : parse t = .ok x := by decide +kernel
  exact ⟨hparse, by decide +kernel,
    parse_text hparse (by decide) (by decide) (by decide) (by decide)⟩

end Whole

end Instr

end Stack6502
