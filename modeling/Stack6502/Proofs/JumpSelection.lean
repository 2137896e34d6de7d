import Stack6502.Proofs.SelectionProgress

/-!
# Jumps and labels are lowered on their own

No idiom and no rule gives code for a label, a breakpoint, a jump, a branch or assembly text,
although idioms leave the operation in their middle open until they are asked for code. So a block
is cut at all of these. Float literals are for rules only.
-/
namespace Stack6502

def Opcode.jump? : Opcode → Option Mnemonic
  | .jump => some .jmp
  | .bcs => some .bcs
  | .bcc => some .bcc
  | .bneg => some .bmi
  | .bpos => some .bpl
  | .bvc => some .bvc
  | .bvs => some .bvs
  | .bz => some .beq
  | .bnz => some .bne
  | _ => none

/-- The opcodes that name a place in the code, and the one of assembly text, which may. -/
def Opcode.turns : List Opcode :=
  [.label, .breakpoint, .jump, .bcs, .bcc, .bneg, .bpos, .bvc, .bvs, .bz, .bnz, .inlineAssembly]

def Opcode.isStraight (op : Opcode) : Bool := !Opcode.turns.contains op

def Coded.isStraight : Coded Opcode → Bool
  | .known op => op.isStraight
  | .stray _ => true

/-- Neither a place in the code nor a float literal. -/
def Opcode.isPlain (op : Opcode) : Bool := !(Opcode.pushFloat :: Opcode.turns).contains op

def Coded.isPlain : Coded Opcode → Bool
  | .known op => op.isPlain
  | .stray _ => true

theorem Coded.isStraight_of_isPlain {op : Coded Opcode} (h : op.isPlain) : op.isStraight := by
  cases op with
  | stray n => rfl
  | known op =>
    simp only [isPlain, Opcode.isPlain, List.contains_cons, Bool.not_or, Bool.and_eq_true] at h
    exact h.2

theorem Opcode.of_jump?_eq_some {op : Opcode} {m : Mnemonic} (h : op.jump? = some m) :
    fallback? op = some (Fallback.jump m) ∧ op.isStraight = false := by
  unfold Opcode.jump? at h
  split at h
  case h_10 => cases h
  all_goals
    cases h
    exact ⟨rfl, rfl⟩

/-- A table without entries for these opcodes holds plain ones only. -/
theorem Opcode.isPlain_of_eq_some {α : Type} {table : Opcode → Option α}
    (htable : ∀ op ∈ Opcode.pushFloat :: Opcode.turns, (table op).isNone) {op : Opcode} {a : α}
    (h : table op = some a) : op.isPlain := by
  cases hop : (Opcode.pushFloat :: Opcode.turns).contains op with
  | false => rw [Opcode.isPlain, hop]; rfl
  | true =>
    have hnone := htable op (List.contains_iff_mem.mp hop)
    rw [h] at hnone
    cases hnone

theorem Coded.isPlain_of_eq_some {α : Type} {table : Coded Opcode → Option α}
    (htable : ∀ op ∈ Opcode.pushFloat :: Opcode.turns, (table (.known op)).isNone)
    {op : Coded Opcode} {a : α} (h : table op = some a) : op.isPlain := by
  cases op with
  | known op => exact Opcode.isPlain_of_eq_some htable h
  | stray n => rfl

/-- What gave a value gave one on the way. -/
theorem Reading.of_bind_eq_some {α β : Type} {r : Reading α} {f : α → Reading β} {b : β}
    (h : (r >>= f).run = .ok (some b)) : ∃ a, r.run = .ok (some a) ∧ (f a).run = .ok (some b) := by
  rw [OptionT.run_bind] at h
  cases hr : r.run with
  | error d => rw [hr] at h; cases h
  | ok o =>
    cases o with
    | none => rw [hr] at h; cases h
    | some a => rw [hr] at h; exact ⟨a, rfl, h⟩

theorem isPlain_of_inPlace {op : Coded Opcode} {width : Width} {c : Cell} {home : Home}
    {code : Code} (h : inPlace op width c home = some code) : op.isPlain := by
  unfold inPlace at h
  split at h
  · obtain ⟨o, ho, -⟩ := Option.bind_eq_some_iff.mp h
    exact Opcode.isPlain_of_eq_some (by decide) ho
  · obtain ⟨o, ho, -⟩ := Option.bind_eq_some_iff.mp h
    exact Opcode.isPlain_of_eq_some (by decide) ho
  · cases h

namespace Idiom

theorem isPlain_of_applyAt {load op : Coded Opcode} {home : Home} {p : Place} {c : Cell}
    {code : Code} (h : applyAt load op home p c = some code) : op.isPlain := by
  unfold applyAt at h
  split at h
  case h_6 => exact isPlain_of_inPlace h
  case h_1 | h_2 =>
    -- Only negation has code for a float.
    obtain ⟨hneg, -⟩ := Option.ite_none_right_eq_some.mp h
    obtain ⟨hop, -⟩ := Bool.and_eq_true_iff.mp hneg
    rw [of_decide_eq_true hop]
    rfl
  all_goals exact isPlain_of_inPlace h

theorem isPlain_of_popsVar {a b : Coded Opcode} (h : popsVar a b) :
    a.isPlain ∧ b.isPlain := by
  unfold popsVar at h
  split at h
  case h_4 => cases h
  all_goals exact ⟨rfl, rfl⟩

theorem isPlain_of_popsMem {a b : Coded Opcode} (h : popsMem a b) :
    a.isPlain ∧ b.isPlain := by
  unfold popsMem at h
  split at h
  case h_6 => cases h
  all_goals exact ⟨rfl, rfl⟩

theorem isPlain_of_elementWidth {a b : Coded Opcode} (h : (elementWidth? a b).isSome) :
    a.isPlain ∧ b.isPlain := by
  unfold elementWidth? at h
  split at h
  case h_3 => cases h
  all_goals exact ⟨rfl, rfl⟩

/-- Reading and writing one element of an array, with an operation between them. -/
theorem isPlain_of_element {push : Opcode} (hpush : push.isPlain) {i x o j y : Instr}
    (hwidth : (elementWidth? x.op y.op).isSome) (hi : i.is push) (hj : j.is push)
    (ho : o.op.isPlain) : ∀ z ∈ [i, x, o, j, y], z.op.isPlain := by
  obtain ⟨hx, hy⟩ := isPlain_of_elementWidth hwidth
  have hi' : i.op.isPlain := by rwa [beq_iff_eq.mp hi]
  have hj' : j.op.isPlain := by rwa [beq_iff_eq.mp hj]
  simp [hi', hx, ho, hj', hy]

/-- Whatever instructions the idiom gives code for, all are plain. -/
def IsPlain (i : Idiom) : Prop :=
  ∀ p lower, i.predicate = some p → i.lowering = some lower →
    ∀ w pool code, w.length = i.span → p w = .ok true → (lower w pool).1 = .ok (some code) →
      ∀ x ∈ w, x.op.isPlain

theorem sameVar_isPlain : sameVar.IsPlain := by
  rintro _ _ ⟨⟩ ⟨⟩ w pool code hlen hp hcode
  obtain ⟨x, o, y, rfl⟩ := List.length_eq_three.mp hlen
  obtain ⟨hpops, -⟩ := Bool.and_eq_true_iff.mp (Except.ok.inj hp)
  obtain ⟨hx, hy⟩ := isPlain_of_popsVar hpops
  have ho := isPlain_of_applyAt (Except.ok.inj hcode)
  simp [hx, ho, hy]

theorem sameMem_isPlain : sameMem.IsPlain := by
  rintro _ _ ⟨⟩ ⟨⟩ w pool code hlen hp hcode
  obtain ⟨x, o, y, rfl⟩ := List.length_eq_three.mp hlen
  obtain ⟨hpops, -⟩ := Bool.and_eq_true_iff.mp (Except.ok.inj hp)
  obtain ⟨hx, hy⟩ := isPlain_of_popsMem hpops
  obtain ⟨a, -, hcode⟩ := Reading.of_bind_eq_some hcode
  have ho := isPlain_of_applyAt (Except.ok.inj hcode)
  simp [hx, ho, hy]

theorem addConst_isPlain : addConst.IsPlain := by
  rintro _ _ ⟨⟩ ⟨⟩ w pool code hlen hp -
  obtain ⟨x, y, o, z, rfl⟩ := List.length_eq_four.mp hlen
  obtain ⟨s, hs⟩ := Option.isSome_iff_exists.mp (Except.ok.inj hp)
  simp only [step?, Option.bind_eq_bind, Option.bind_eq_some_iff, Option.ite_none_right_eq_some,
    Bool.and_eq_true, decide_eq_true_eq] at hs
  obtain ⟨width, hpush, sum, hsum, -, -, ⟨⟨⟨⟨⟨-, hconst⟩, -⟩, hpop⟩, -⟩, -⟩, -⟩ := hs
  have hlocation := Coded.isPlain_of_eq_some (by decide) hpush
  have hconstant := Coded.isPlain_of_eq_some (by decide) hconst
  have ho := Coded.isPlain_of_eq_some (by decide) hsum
  have hz := Coded.isPlain_of_eq_some (by decide) hpop
  -- The constant comes first or second, but both are pushed.
  have hxy : x.op.isPlain ∧ y.op.isPlain := by
    unfold operands at hlocation hconstant
    split at hlocation
    · exact ⟨by simpa [*] using hconstant, hlocation⟩
    · exact ⟨hlocation, by simpa [*] using hconstant⟩
  simp [hxy.1, hxy.2, ho, hz]

theorem constElement_isPlain : constElement.IsPlain := by
  rintro _ _ ⟨⟩ ⟨⟩ w pool code hlen hp hcode
  obtain ⟨i, u, rfl⟩ := List.exists_cons_of_length_eq_add_one hlen
  obtain ⟨x, o, j, y, rfl⟩ := List.length_eq_four.mp (Nat.succ.inj hlen)
  have hp := Except.ok.inj hp
  simp only [Bool.and_eq_true] at hp
  obtain ⟨⟨⟨⟨hwidth, hi⟩, hj⟩, -⟩, -⟩ := hp
  refine isPlain_of_element rfl hwidth hi hj ?_
  obtain ⟨n, -, hcode⟩ := Reading.of_bind_eq_some hcode
  obtain ⟨width, -, hcode⟩ := Reading.of_bind_eq_some hcode
  cases width with
  | byte => exact isPlain_of_inPlace (Except.ok.inj hcode)
  | word => exact isPlain_of_inPlace (Except.ok.inj hcode)

theorem varElement_isPlain : varElement.IsPlain := by
  rintro _ _ ⟨⟩ ⟨⟩ w pool code hlen hp hcode
  obtain ⟨i, u, rfl⟩ := List.exists_cons_of_length_eq_add_one hlen
  obtain ⟨x, o, j, y, rfl⟩ := List.length_eq_four.mp (Nat.succ.inj hlen)
  have hp := Except.ok.inj hp
  simp only [Bool.and_eq_true] at hp
  obtain ⟨⟨⟨⟨hwidth, hi⟩, hj⟩, -⟩, -⟩ := hp
  refine isPlain_of_element rfl hwidth hi hj ?_
  obtain ⟨width, -, hcode⟩ := Option.bind_eq_some_iff.mp (Except.ok.inj hcode)
  cases width with
  | byte =>
    obtain ⟨load, -, hcode⟩ := Option.bind_eq_some_iff.mp hcode
    obtain ⟨body, hbody, -⟩ := Option.bind_eq_some_iff.mp hcode
    exact isPlain_of_inPlace hbody
  | word =>
    obtain ⟨load, -, hcode⟩ := Option.bind_eq_some_iff.mp hcode
    obtain ⟨body, hbody, -⟩ := Option.bind_eq_some_iff.mp hcode
    exact isPlain_of_inPlace hbody

theorem all_isPlain : ∀ i ∈ all, i.IsPlain := by
  simp only [all, List.forall_mem_cons, List.not_mem_nil, false_imp_iff, implies_true, and_true]
  exact ⟨sameVar_isPlain, sameMem_isPlain, addConst_isPlain, constElement_isPlain,
    varElement_isPlain⟩

end Idiom

theorem Assignment.rules_isStraight : ∀ r ∈ rules, ∀ op ∈ r.seq ++ r.alt, op.isStraight := by
  decide

/-- Instructions at the start of a window where opcodes stand bear them. -/
theorem exists_op_of_mem_take {ops : List Opcode} {w : List Instr}
    (h : ops.map .known <+: w.map (·.op)) {x : Instr} (hx : x ∈ w.take ops.length) :
    ∃ op ∈ ops, x.op = .known op := by
  have htake : ops.map .known = (w.take ops.length).map (·.op) := by
    have h := List.prefix_iff_eq_take.mp h
    rwa [List.length_map, ← List.map_take] at h
  have hmem : x.op ∈ ops.map .known := htake ▸ List.mem_map_of_mem hx
  obtain ⟨op, hop, hx⟩ := List.mem_map.mp hmem
  exact ⟨op, hop, hx.symm⟩

theorem Rule.exists_op_of_applies {r : Rule} (hwell : r.isWellFormed) {w : List Instr}
    (h : r.Applies w) {x : Instr} (hx : x ∈ w.take r.size) :
    ∃ op ∈ r.seq ++ r.alt, x.op = .known op := by
  rcases h with hseq | ⟨hne, halt⟩
  · obtain ⟨op, hop, hx⟩ := exists_op_of_mem_take hseq hx
    exact ⟨op, List.mem_append_left _ hop, hx⟩
  · rw [← length_alt hwell hne] at hx
    obtain ⟨op, hop, hx⟩ := exists_op_of_mem_take halt hx
    exact ⟨op, List.mem_append_right _ hop, hx⟩

theorem Rule.isStraight_of_applies {r : Rule} (hr : ∀ op ∈ r.seq ++ r.alt, op.isStraight)
    (hwell : r.isWellFormed) {w : List Instr} (h : r.Applies w) :
    ∀ x ∈ w.take r.size, x.op.isStraight := by
  intro x hx
  obtain ⟨op, hop, hx⟩ := exists_op_of_applies hwell h hx
  rw [hx]
  exact hr op hop

open Selection

namespace Catalog

/-- What patterns offer is code for straight instructions. -/
theorem isStraight_of_bids {window : Int} {c : Catalog}
    (hmake : make window Idiom.all Assignment.rules = .ok c) {op : Opcode} {w : List Instr} :
    ∀ bid ∈ c.bids op w, ∀ pool, ∀ f ∈ bid.1 pool, ∀ x ∈ w.take f.size, x.op.isStraight := by
  obtain ⟨hwell, -, rfl⟩ := make_eq_ok_iff.mp hmake
  intro bid hbid pool f hf
  rcases List.mem_append.mp hbid with hbid | hbid
  · obtain ⟨i, hi, rfl⟩ := List.mem_map.mp hbid
    obtain ⟨⟨hspan, hp⟩, hf⟩ := Option.mem_ite_none_right.mp hf
    obtain ⟨p, hp, hw⟩ := Option.map_eq_some_iff.mp hp
    obtain ⟨lower, code, hlower, hcode, rfl⟩ := Lowering.of_offer?_eq_some hf
    have hlen : (w.take i.1.span).length = i.1.span := List.length_take_of_le hspan
    have hplain := Idiom.all_isPlain i.1 (List.fst_mem_of_mem_zipIdx hi) p lower hp hlower
    dsimp only
    rw [hlen]
    exact fun x hx => Coded.isStraight_of_isPlain (hplain _ pool code hlen hw hcode x hx)
  · obtain ⟨r, hr, rfl⟩ := List.mem_map.mp hbid
    obtain ⟨happlies, hf⟩ := Option.mem_ite_none_right.mp hf
    have hmem := mem_of_mem_rulesAt rfl hr
    rw [Lowering.size_of_offer? hf, List.length_take, ← List.take_eq_take_min]
    exact Rule.isStraight_of_applies (Assignment.rules_isStraight _ hmem) (hwell _ hmem) happlies

end Catalog

/-- A piece of code with the fragment selected for it: the piece is straight, or the fragment is the
code of one instruction on its own. -/
inductive LowersTo (scope : Option Text) : List Instr → Fragment → Prop
  | straight {piece : List Instr} {f : Fragment} (hne : piece ≠ []) (hlen : piece.length = f.size)
    (hpiece : ∀ x ∈ piece, x.op.isStraight) : LowersTo scope piece f
  | alone {x : Instr} {op : Opcode} {fallback : Fallback} {s t : Session} {code : Code}
    (hx : x.op = .known op) (hop : fallback? op = some fallback)
    (hcode : fallback scope x s = (.ok (some code), t)) :
    LowersTo scope [x] ⟨"fallback " ++ op.name, code, 1, op == .inlineAssembly⟩

namespace Catalog

/-- What is selected is code for straight instructions, which changes at most the literals, or the
code of one instruction on its own. -/
theorem straight_or_alone_of_select {window : Int} {c : Catalog}
    (hmake : make window Idiom.all Assignment.rules = .ok c)
    {scope : Option Text} {code : List Instr} {s t : Session} {f : Fragment}
    (h : (c.select scope code).run.run s = (.ok (some f), t)) :
    ((∃ pool, t = { s with pool }) ∧ ∀ x ∈ code.take f.size, x.op.isStraight) ∨
    ∃ x op fallback pool lines, code.take f.size = [x] ∧ x.op = .known op ∧
      fallback? op = some fallback ∧ fallback scope x { s with pool } = (.ok (some lines), t) ∧
      f = ⟨"fallback " ++ op.name, lines, 1, op == .inlineAssembly⟩ := by
  obtain ⟨hc, rfl⟩ := isSound_of_make hmake
  have hwindow := window_nonneg_of_select h
  obtain ⟨-, -, hle⟩ := hc.of_select_eq_some hwindow h
  rcases select_cases hc hwindow scope code s with ⟨-, hrun⟩ | hcases
  · rw [h] at hrun
    cases hrun
  · obtain ⟨x, rest, op, best, pool, hreach, hx, hconsidered, hrun⟩ := hcases
    rw [h] at hrun
    rw [← take_reach hle, hreach]
    cases best with
    | some b =>
      cases hrun
      exact .inl ⟨⟨pool, rfl⟩,
        hconsidered.forall_of_forall (isStraight_of_bids hmake) (by simp) b rfl⟩
    | none =>
      obtain ⟨fallback, hf, hanswers⟩ := fallback_answers hx
      obtain ⟨⟨answer, hanswer⟩, -⟩ := hanswers scope { s with pool }
      have halone := hrun.trans (alone_run hf (Prod.ext hanswer rfl))
      cases answer with
      | none => cases halone
      | some lines =>
        cases halone
        exact .inr ⟨x, op, fallback, pool, lines, rfl, hx.1, hf, Prod.ext hanswer rfl, rfl⟩

theorem lowersTo_of_select {window : Int} {c : Catalog}
    (hmake : make window Idiom.all Assignment.rules = .ok c) (hwindow : 0 ≤ window)
    {scope : Option Text} {code : List Instr} {s t : Session} {f : Fragment}
    (h : (c.select scope code).run.run s = (.ok (some f), t)) :
    LowersTo scope (code.take f.size) f := by
  rcases straight_or_alone_of_select hmake h with ⟨-, hstraight⟩ | halone
  · obtain ⟨hc, rfl⟩ := isSound_of_make hmake
    obtain ⟨hne, hlen⟩ := hc.length_take hwindow h
    exact .straight hne hlen hstraight
  · obtain ⟨x, op, fallback, pool, lines, hpiece, hx, hop, hcode, rfl⟩ := halone
    rw [hpiece]
    exact .alone hx hop hcode

/-- The fragments of a block cut its code into pieces around what is not straight. -/
theorem Takes.lowersTo {window : Int} {c : Catalog}
    (hmake : make window Idiom.all Assignment.rules = .ok c) (hwindow : 0 ≤ window)
    {scope : Option Text} {code rest : List Instr} {s t : Session} {fs : List Fragment}
    (h : c.Takes scope code s fs rest t) :
    ∃ pieces, List.Forall₂ (LowersTo scope) pieces fs ∧ code = pieces.flatten ++ rest :=
  h.exists_pieces (lowersTo_of_select hmake hwindow)

end Catalog

end Stack6502
