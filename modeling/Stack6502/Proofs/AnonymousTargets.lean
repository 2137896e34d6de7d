import Stack6502.Proofs.InstrGrammar
import Stack6502.Proofs.IntegerValues
import Stack6502.Proofs.LoadedPrograms

/-!
# Anonymous targets

A jump, a call and a branch are complete with any name as their target. In a text the target is
read back if it is a word that does not start like a number. An anonymous name starts with a sign,
so it is taken for a number, and no number has signs alone: such a label can be written, but no
loaded program goes to it.
-/
namespace Stack6502

open IntLiteral Naming

/-! ### Texts of signs -/

namespace IntLiteral

variable {t : Text} {b : UInt8}

theorem isSign_iff : isSign b ↔ b = Text.byte '-' ∨ b = Text.byte '+' := by
  simp [isSign]

theorem isSign_of_mem_dropSign (h : ∀ b ∈ t, isSign b) : ∀ b ∈ dropSign t, isSign b := by
  cases t with
  | nil => exact h
  | cons c t =>
    rw [dropSign]
    split_ifs
    · exact (List.forall_mem_cons.mp h).2
    · exact h

theorem exists_readNat_error_of_isSign (h : ∀ b ∈ t, isSign b) :
    ∃ fault, readNat none t = .error fault := by
  cases t with
  | nil => exact ⟨_, rfl⟩
  | cons c t =>
    have hmem : c ∈ c :: t := List.mem_cons_self
    have hsplit : splitBase (c :: t) = (10, c :: t) := by
      have hzero : c ≠ Text.byte '0' := by
        rcases isSign_iff.mp (h c hmem) with rfl | rfl <;> decide
      rcases t with _ | ⟨mark, _ | ⟨d, rest⟩⟩ <;> simp [splitBase, hzero]
    obtain ⟨fault, hfault⟩ : ∃ fault, readDigits 10 true 0 (c :: t) = .error fault := by
      rcases isSign_iff.mp (h c hmem) with rfl | rfl
      · exact exists_readDigits_error 0 hmem (by decide) (by decide)
      · exact exists_readDigits_error 0 hmem (by decide) (by decide)
    refine ⟨fault, ?_⟩
    simp [readNat, hsplit, hfault, bind, Except.bind]

theorem exists_readInt_error_of_isSign (h : ∀ b ∈ t, isSign b) :
    ∃ fault, readInt none t = .error fault := by
  obtain ⟨fault, hfault⟩ := exists_readNat_error_of_isSign (isSign_of_mem_dropSign h)
  refine ⟨fault, ?_⟩
  rw [readInt, hfault]
  rfl

end IntLiteral

namespace FloatLiteral

variable {t : Text}

theorem readWord_of_isSign (h : ∀ b ∈ t, isSign b) : readWord t = none := by
  have hsigns (u : Text) (hu : ∀ b ∈ u, isSign b) (word : Text) {c : UInt8}
      (hc : word.head? = some c) (hsign : isSign c = false) : u.map lowerByte ≠ word := by
    rintro rfl
    rw [List.head?_map] at hc
    obtain ⟨b, hb, rfl⟩ := Option.map_eq_some_iff.mp hc
    rcases isSign_iff.mp (hu b (List.mem_of_mem_head? hb)) with rfl | rfl
    · cases hsign
    · cases hsign
  have hdrop := isSign_of_mem_dropSign h
  simp [readWord, hsigns _ hdrop "inf" rfl rfl, hsigns _ hdrop "infinity" rfl rfl,
    hsigns _ h "nan" rfl rfl]

theorem readNumber_of_isSign (h : ∀ b ∈ t, isSign b) : readNumber t = none := by
  have hdrop := isSign_of_mem_dropSign h
  unfold readNumber
  generalize dropSign t = body at hdrop ⊢
  -- There is neither a whole part nor a fraction before the sign that comes first.
  rcases body with _ | ⟨c, _ | ⟨mark, _ | ⟨d, rest⟩⟩⟩
  · rfl
  all_goals
    rcases isSign_iff.mp (hdrop c List.mem_cons_self) with rfl | rfl <;> rfl

end FloatLiteral

theorem Value.splitMark_of_isSign {t : Text} (h : ∀ b ∈ t, isSign b) :
    splitMark t = (none, t) := by
  cases t with
  | nil => rfl
  | cons c t => rcases isSign_iff.mp (h c List.mem_cons_self) with rfl | rfl <;> rfl

/-- Signs alone are no number. -/
theorem Value.parse?_of_isSign {t : Text} (h : ∀ b ∈ t, isSign b) : parse? t = none := by
  have hrest : ∀ b ∈ if t.head? == some (Text.byte '-') then t.drop 1 else t, isSign b := by
    split_ifs
    · exact fun b hb => h b (List.mem_of_mem_drop hb)
    · exact h
  obtain ⟨fault, hint⟩ := exists_readInt_error_of_isSign hrest
  have hfloat : FloatLiteral.read t = none := by
    rw [FloatLiteral.read, FloatLiteral.readWord_of_isSign h, FloatLiteral.readNumber_of_isSign h]
  simp only [parse?, splitMark_of_isSign hrest, hint, hfloat, Option.map_none]

namespace Naming

variable {s : Text}

theorem isSign_of_isAnonymous (h : isAnonymous s) : s ≠ [] ∧ ∀ b ∈ s, isSign b := by
  simp only [isAnonymous, Bool.and_eq_true, Bool.not_eq_true', List.isEmpty_eq_false_iff,
    Bool.or_eq_true, List.all_eq_true, beq_iff_eq] at h
  refine ⟨h.1, fun b hb => ?_⟩
  rcases h.2 with hplus | hminus
  · exact isSign_iff.mpr (.inr (hplus b hb))
  · exact isSign_iff.mpr (.inl (hminus b hb))

theorem isWord_of_isAnonymous (h : isAnonymous s) : s.IsWord := by
  obtain ⟨hne, hsigns⟩ := isSign_of_isAnonymous h
  refine Text.isWord_of_visible hne fun b hb => ?_
  rcases isSign_iff.mp (hsigns b hb) with rfl | rfl <;> decide

theorem startsNumber_of_isAnonymous (h : isAnonymous s) : Instr.startsNumber s := by
  obtain ⟨hne, hsigns⟩ := isSign_of_isAnonymous h
  obtain ⟨b, rest, rfl⟩ := List.exists_cons_of_ne_nil hne
  rcases isSign_iff.mp (hsigns b List.mem_cons_self) with rfl | rfl <;> rfl

end Naming

/-! ### Instructions that go to a label -/

def Opcode.isTransfer (op : Opcode) : Bool := op = .jump || op = .call || op.isBranch

namespace Instr

variable {op : Opcode} {s t : Text} {x : Instr}

def goTo (op : Opcode) (s : Text) : Instr := { op := .known op, sym := s }

theorem takesOperands_of_isTransfer (h : op.isTransfer) : takesOperands op := by
  refine ⟨?_, ?_, ?_⟩ <;> rintro rfl <;> cases h

theorem operand_of_isTransfer (h : op.isTransfer) : op.operand = .target := by
  cases op <;> first | rfl | cases h

theorem fault?_goTo (h : op.isTransfer) (hs : s ≠ []) : (goTo op s).fault? = none := by
  simp [fault?, goTo, hasOperand, operand_of_isTransfer h, hs]

theorem text_goTo (h : op.isTransfer) (hs : s ≠ []) :
    (goTo op s).text = Text.ofString op.name ++ [s].flatMap (Text.space :: ·) := by
  have htexts : (goTo op s).operandTexts = [s] := by simp [operandTexts, goTo, hs]
  rw [text_of_takesOperands rfl (takesOperands_of_isTransfer h), operandsListing_eq, htexts]

/-- Operands other than the rest of a line are names or none at all. -/
theorem isRead_of_parse (h : parse t = .ok x) (hx : x.op = .known op) (htakes : takesOperands op) :
    x.IsRead op := by
  obtain ⟨hlabel, hline, hasm⟩ := htakes
  obtain ⟨name, op', -, hop | hop | ⟨-, sym, rfl⟩ | ⟨-, rest, hread⟩⟩ := of_parse_eq_ok h
  · exact absurd (Coded.known.inj (hx.symm.trans hop)) hlabel
  · exact absurd (Coded.known.inj (hx.symm.trans hop)) hasm
  · exact absurd (Coded.known.inj hx).symm hline
  · have hread := isRead_of_parseOperands hread
    obtain rfl : op = op' := Coded.known.inj (hx.symm.trans hread.op_eq)
    exact hread

theorem parse_goTo_iff (h : op.isTransfer) (hs : s ≠ []) :
    parse (goTo op s).text = .ok (goTo op s) ↔ IsName s := by
  have htakes := takesOperands_of_isTransfer h
  constructor
  · intro hparse
    exact (isRead_of_parse hparse rfl htakes).sym.resolve_left hs
  · intro hname
    have hread : (goTo op s).IsRead op :=
      ⟨rfl, .inr hname, .inl rfl, by simp [goTo], by simp [goTo]⟩
    exact hread.parse_listing (Opcode.parse?_ofName op) htakes (fault?_goTo h hs) (by simp [goTo])
      (by simp [goTo])

theorem parse_goTo_of_isAnonymous (h : op.isTransfer) (hs : isAnonymous s) :
    parse (goTo op s).text = .error (.badNumber op s) := by
  obtain ⟨hne, hsigns⟩ := isSign_of_isAnonymous hs
  obtain ⟨rest, hwords, hparse⟩ := exists_parse_words (Opcode.parse?_ofName op)
    (takesOperands_of_isTransfer h) (List.forall_mem_singleton.mpr (isWord_of_isAnonymous hs))
  have hadd : addOperand op { op := .known op } s = .error (.badNumber op s) := by
    rw [addOperand, if_pos (startsNumber_of_isAnonymous hs), addValue,
      Value.parse?_of_isSign hsigns]
  rw [text_goTo h hne, hparse, parseOperands, hwords, addOperands_cons, hadd]
  rfl

/-- A label is the rest of its line. -/
theorem parse_label (h : s.IsTrimmed) (hs : s ≠ []) :
    parse (Text.ofString (Opcode.name .label) ++ Text.space :: s) =
      .ok { op := .known .label, sym := s } := by
  unfold parse
  rw [cut_trim_append (Opcode.mem_all _) h hs]
  dsimp only
  rw [Opcode.parse?_ofName]
  simp [h.trim_eq, hs]

/-- The operands of loaded code are not anonymous. -/
theorem not_isAnonymous_of_read [Decoder] {p : Program} {heap : Heap} {b : Block}
    (h : Program.read t = .ok (p, heap)) (hb : b ∈ p.blocks) (hx : x ∈ b.code)
    (hop : x.op = .known op) (htakes : takesOperands op) : ¬ isAnonymous x.sym := by
  obtain ⟨u, hparse⟩ := Program.exists_parse_of_read h hb hx
  intro hanonymous
  obtain hnone | hname := (isRead_of_parse hparse hop htakes).sym
  · exact (isSign_of_isAnonymous hanonymous).1 hnone
  · have hstarts := startsNumber_of_isAnonymous hanonymous
    rw [hname.2] at hstarts
    cases hstarts

/-- A jump, a call or a branch may go to any label, but it is read back only if the label is a word
that does not start like a number. An anonymous label is read where it stands, and refused as a
number where it is the target, so no loaded program goes to one. -/
theorem goTo_reads_back_iff (hop : op.isTransfer) (hs : s ≠ []) :
    (goTo op s).fault? = none ∧
    (parse (goTo op s).text = .ok (goTo op s) ↔ s.IsWord ∧ startsNumber s = false) ∧
    (isAnonymous s →
      parse (Text.ofString (Opcode.name .label) ++ Text.space :: s) =
          .ok { op := .known .label, sym := s } ∧
        parse (goTo op s).text = .error (.badNumber op s)) ∧
    ∀ [Decoder] t p heap, Program.read t = .ok (p, heap) → ∀ b ∈ p.blocks, ∀ x ∈ b.code,
      x.op = .known op → ¬ isAnonymous x.sym :=
  ⟨fault?_goTo hop hs, parse_goTo_iff hop hs,
    fun hanonymous => ⟨parse_label (isWord_of_isAnonymous hanonymous).isTrimmed hs,
      parse_goTo_of_isAnonymous hop hanonymous⟩,
    fun _ _ _ hread _ hb _ hx hxop =>
      not_isAnonymous_of_read hread hb hx hxop (takesOperands_of_isTransfer hop)⟩

theorem goTo_reads_back_iff_loop :
    let t : Text := "blocks:\n- name: a\n  code: [BNZ b]"
    let x := goTo .bnz "b"
    let p : Program := ⟨[], .known .basic, 0, [⟨"a", "a", 0, [], [x]⟩]⟩
    Program.read t = .ok (p, []) ∧ ¬ isAnonymous x.sym ∧ x.fault? = none ∧ isAnonymous "--" ∧
      parse (Text.ofString (Opcode.name .label) ++ Text.space :: "--") =
        .ok { op := .known .label, sym := "--" } ∧
      parse (goTo .bnz "--").text = .error (.badNumber .bnz "--") := by
  intro t x p
  have hread : Program.read t = .ok (p, []) := by decide +kernel
  have hb := @goTo_reads_back_iff .bnz "b" (by decide) (by decide)
  have hsigns := @goTo_reads_back_iff .bnz "--" (by decide) (by decide)
  exact ⟨hread,
    hb.2.2.2 t p [] hread _ (List.mem_singleton_self _) x (List.mem_singleton_self _) rfl,
    hb.1, by decide, hsigns.2.2.1 (by decide)⟩

/-- A branch back over a minus is complete and cannot be read. -/
theorem goTo_minus_not_read :
    isAnonymous "-" ∧ (goTo .bnz "-").fault? = none ∧
      (goTo .bnz "-").text = Text.ofString "BNZ -" ∧
      parse (goTo .bnz "-").text ≠ .ok (goTo .bnz "-") := by
  refine ⟨by decide, by decide, by decide, ?_⟩
  rw [parse_goTo_of_isAnonymous (by decide) (by decide)]
  simp

end Instr

end Stack6502
