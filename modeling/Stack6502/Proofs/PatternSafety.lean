import Mathlib.Data.List.Forall2
import Stack6502.Lower.Selection
import Stack6502.Proofs.OperandStack

/-!
# Patterns read only what is there

Patterns read operands without a check of their own. Handed the instructions they were made for,
with the operands that their opcodes need, they meet no defect: every pattern of the catalogs
answers, if only by declining.
-/
namespace Stack6502

namespace Reading

variable {α β : Type}

/-- Reading met no defect, also where a pattern then declines. -/
def Answers (r : Reading α) : Prop := ∃ a, r.run = .ok a

theorem answers_pure (a : α) : (pure a : Reading α).Answers := ⟨some a, rfl⟩

theorem answers_ofOption (o : Option α) : (ofOption o).Answers := ⟨o, rfl⟩

theorem Answers.bind {r : Reading α} {f : α → Reading β} (hr : r.Answers)
    (hf : ∀ a, (f a).Answers) : (r >>= f).Answers := by
  obtain ⟨a, ha⟩ := hr
  cases a with
  | none => exact ⟨none, by rw [OptionT.run_bind, ha]; rfl⟩
  | some a =>
    obtain ⟨b, hb⟩ := hf a
    exact ⟨b, by rw [OptionT.run_bind, ha]; exact hb⟩

theorem Answers.map {r : Reading α} (hr : r.Answers) (f : α → β) : (f <$> r).Answers := by
  obtain ⟨a, ha⟩ := hr
  exact ⟨a.map f, by simp [ha]⟩

end Reading

open Reading

namespace Instr

def IsWhole (op : Opcode) (x : Instr) : Prop := x.op = .known op ∧ x.isComplete

theorem IsWhole.answers_integer {x : Instr} {op : Opcode} (h : x.IsWhole op)
    (hop : op.operand = .int) : x.integer.Answers := by
  obtain ⟨v, hv⟩ := x.exists_int h.2 h.1 hop
  exact ⟨some v, by rw [integer, hv]; rfl⟩

theorem exists_isWhole {x : Instr} (h : x.isComplete) : ∃ op, x.IsWhole op := by
  cases hx : x.op with
  | known op => exact ⟨op, hx, h⟩
  | stray n => simp [isComplete, fault?, hx] at h

theorem exists_ref_of_sameRef {x y : Instr} (h : x.sameRef y) :
    ∃ r, x.ref? = some r ∧ y.ref? = some r := by
  unfold sameRef at h
  split at h
  next r s hx hy => exact ⟨r, hx, beq_iff_eq.mp h ▸ hy⟩
  next => cases h

end Instr

def Matched (ops : List Opcode) (w : List Instr) : Prop :=
  List.Forall₂ (fun op x => x.IsWhole op) ops w

/-- Instructions matched by a sequence of opcodes or by its alternative, which is empty if there
is none. -/
def MatchedEither (seq alt : List Opcode) (w : List Instr) : Prop :=
  Matched seq w ∨ alt ≠ [] ∧ Matched alt w

namespace Matched

variable {a b c : Opcode} {w : List Instr}

theorem one (h : Matched [a] w) : ∃ x, w = [x] ∧ x.IsWhole a := by
  obtain ⟨x, u, hx, hu, rfl⟩ := List.forall₂_cons_left_iff.mp h
  cases hu
  exact ⟨x, rfl, hx⟩

theorem two (h : Matched [a, b] w) : ∃ x y, w = [x, y] ∧ x.IsWhole a ∧ y.IsWhole b := by
  obtain ⟨x, u, hx, hu, rfl⟩ := List.forall₂_cons_left_iff.mp h
  obtain ⟨y, rfl, hy⟩ := one hu
  exact ⟨x, y, rfl, hx, hy⟩

theorem three (h : Matched [a, b, c] w) :
    ∃ x y z, w = [x, y, z] ∧ x.IsWhole a ∧ y.IsWhole b ∧ z.IsWhole c := by
  obtain ⟨x, u, hx, hu, rfl⟩ := List.forall₂_cons_left_iff.mp h
  obtain ⟨y, z, rfl, hy, hz⟩ := two hu
  exact ⟨x, y, z, rfl, hx, hy, hz⟩

theorem split {s d : List Opcode} (h : Matched (s ++ d) w) :
    Matched s (w.take s.length) ∧ Matched d (w.drop s.length) :=
  ⟨List.forall₂_take_append w s d h.flip |>.flip, List.forall₂_drop_append w s d h.flip |>.flip⟩

end Matched

namespace MatchedEither

variable {s d t e : List Opcode} {w : List Instr}

theorem plain : MatchedEither s [] w ↔ Matched s w := by
  simp [MatchedEither]

theorem split (ht : t = [] ∨ t.length = s.length)
    (h : MatchedEither (s ++ d) (Assignment.alternative s d t e) w) :
    MatchedEither s t (w.take s.length) ∧ MatchedEither d e (w.drop s.length) := by
  rcases h with h | ⟨halt, h⟩
  · exact ⟨.inl h.split.1, .inl h.split.2⟩
  · have hne : (t.isEmpty && e.isEmpty) = false := by
      rw [Assignment.alternative] at halt
      cases hte : t.isEmpty && e.isEmpty with
      | true => rw [hte] at halt; exact absurd rfl halt
      | false => rfl
    rw [Assignment.alternative, hne] at h
    obtain ⟨hfirst, hsecond⟩ := Matched.split h
    have hlen : (if t.isEmpty then s else t).length = s.length := by
      cases t with
      | nil => rfl
      | cons a t => exact ht.resolve_left (by simp)
    rw [hlen] at hfirst hsecond
    constructor
    · cases t with
      | nil => exact .inl hfirst
      | cons a t => exact .inr ⟨by simp, hfirst⟩
    · cases e with
      | nil => exact .inl hsecond
      | cons a e => exact .inr ⟨by simp, hsecond⟩

end MatchedEither

def Lowering.Answers (lower : Lowering) (w : List Instr) : Prop :=
  ∀ pool, ∃ code, (lower w pool).1 = .ok code

theorem Lowering.answers_reading {f : List Instr → Reading Code} {w : List Instr}
    (h : (f w).Answers) : (Lowering.reading f).Answers w := fun _ => h

/-- The rule has its function, which answers for all instructions that match. -/
def Rule.IsSound (r : Rule) : Prop :=
  ∃ lower, r.lowering = some lower ∧ ∀ w, MatchedEither r.seq r.alt w → lower.Answers w

def Idiom.IsSound (i : Idiom) : Prop :=
  ∃ p lower, i.predicate = some p ∧ i.lowering = some lower ∧
    ∀ w, w.length = i.span → (∀ x ∈ w, x.isComplete) →
      ∃ b, p w = .ok b ∧ (b = true → lower.Answers w)

namespace Assignment

theorem answers_constByte {x : Instr} {op : Opcode} (hx : x.IsWhole op) (hop : op.operand = .int) :
    (constByte x).Answers := (hx.answers_integer hop).bind fun _ => answers_pure _

theorem answers_memByte {x : Instr} {op : Opcode} (hx : x.IsWhole op) (hop : op.operand = .int) :
    (memByte x).Answers := (hx.answers_integer hop).bind fun _ => answers_pure _

theorem answers_elemByte {i array : Instr} {op : Opcode} (hi : i.IsWhole op)
    (hop : op.operand = .int) : (elemByte i array).Answers :=
  (hi.answers_integer hop).bind fun _ => answers_pure _

theorem byteSources_answer : ∀ s ∈ byteSources, ∀ w, MatchedEither s.seq s.alt w →
    (s.value w).Answers := by
  simp only [byteSources, List.forall_mem_cons, MatchedEither.plain]
  refine ⟨?_, ?_, ?_, ?_, ?_, ?_, ?_⟩
  · intro w h
    obtain ⟨x, rfl, hx⟩ := h.one
    exact answers_constByte hx rfl
  · intro w h
    obtain ⟨x, rfl, -⟩ := h.one
    exact answers_ofOption _
  · rintro w (h | ⟨-, h⟩)
    all_goals
      obtain ⟨x, rfl, hx⟩ := h.one
      exact answers_memByte hx rfl
  · intro w h
    obtain ⟨i, array, rfl, hi, -⟩ := h.two
    exact answers_elemByte hi rfl
  · intro w h
    obtain ⟨i, array, rfl, -⟩ := h.two
    exact answers_ofOption _
  · rintro w (h | ⟨-, h⟩)
    all_goals
      obtain ⟨i, array, rfl, hi, -⟩ := h.two
      exact (hi.answers_integer rfl).bind fun _ => answers_pure _
  · simp

theorem byteDests_answer : ∀ d ∈ byteDests, ∀ v w, MatchedEither d.seq d.alt w →
    (d.store v w).Answers := by
  simp only [byteDests, List.forall_mem_cons, MatchedEither.plain]
  refine ⟨?_, ?_, ?_, ?_, ?_, ?_⟩
  · intro v w h
    obtain ⟨x, rfl, -⟩ := h.one
    dsimp only
    split
    · exact answers_pure _
    · exact answers_ofOption _
    · exact answers_pure _
    · exact answers_pure _
  · intro v w h
    obtain ⟨x, rfl, hx⟩ := h.one
    exact (hx.answers_integer rfl).bind fun _ => answers_pure _
  · intro v w h
    obtain ⟨i, array, rfl, hi, -⟩ := h.two
    exact (hi.answers_integer rfl).bind fun _ => answers_pure _
  · intro v w h
    obtain ⟨i, array, rfl, -⟩ := h.two
    exact answers_ofOption _
  · rintro v w (h | ⟨-, h⟩)
    all_goals
      obtain ⟨i, array, rfl, hi, -⟩ := h.two
      exact (hi.answers_integer rfl).bind fun _ => answers_ofOption _
  · simp

theorem wordSources_answer : ∀ s ∈ wordSources, ∀ w d, MatchedEither s.seq s.alt w →
    (s.store w d).Answers := by
  simp only [wordSources, List.forall_mem_cons, MatchedEither.plain]
  refine ⟨?_, ?_, ?_, ?_, ?_, ?_, ?_, ?_, ?_, ?_, ?_, ?_⟩
  · intro w d h
    obtain ⟨x, rfl, hx⟩ := h.one
    exact (hx.answers_integer rfl).bind fun _ => answers_pure _
  · intro w d h
    obtain ⟨x, rfl, -⟩ := h.one
    exact answers_ofOption _
  · rintro w d (h | ⟨-, h⟩)
    all_goals
      obtain ⟨x, rfl, hx⟩ := h.one
      exact (hx.answers_integer rfl).bind fun _ => answers_pure _
  · intro w d h
    obtain ⟨i, array, rfl, hi, -⟩ := h.two
    exact (hi.answers_integer rfl).bind fun _ => answers_pure _
  · intro w d h
    obtain ⟨x, y, rfl, hx, -⟩ := h.two
    exact (answers_constByte hx rfl).bind fun _ => answers_pure _
  · intro w d h
    obtain ⟨x, y, rfl, -⟩ := h.two
    exact (answers_ofOption _).bind fun _ => answers_pure _
  · intro w d h
    obtain ⟨x, y, rfl, hx, -⟩ := h.two
    exact (answers_memByte hx rfl).bind fun _ => answers_pure _
  · intro w d h
    obtain ⟨i, array, y, rfl, hi, -⟩ := h.three
    exact (answers_elemByte hi rfl).bind fun _ => answers_pure _
  · intro w d h
    obtain ⟨x, y, rfl, -⟩ := h.two
    exact (answers_ofOption _).bind fun _ => answers_pure _
  · intro w d h
    obtain ⟨x, y, rfl, hx, -⟩ := h.two
    exact (answers_memByte hx rfl).bind fun _ => answers_pure _
  · intro w d h
    obtain ⟨i, array, y, rfl, hi, -⟩ := h.three
    exact (answers_elemByte hi rfl).bind fun _ => answers_pure _
  · simp

theorem wordDests_answer : ∀ d ∈ wordDests, ∀ w, Matched d.seq w → (d.place w).Answers := by
  simp only [wordDests, List.forall_mem_cons]
  refine ⟨?_, ?_, ?_, ?_⟩
  · intro w h
    obtain ⟨x, rfl, -⟩ := h.one
    exact answers_ofOption _
  · intro w h
    obtain ⟨x, rfl, hx⟩ := h.one
    exact (hx.answers_integer rfl).bind fun _ => answers_pure _
  · intro w h
    obtain ⟨i, array, rfl, hi, -⟩ := h.two
    exact (hi.answers_integer rfl).bind fun _ => answers_pure _
  · simp

theorem floatSources_answer : ∀ s ∈ floatSources, ∀ w pool, Matched s.seq w →
    ∃ p, (s.place w pool).1 = .ok p := by
  simp only [floatSources, List.forall_mem_cons]
  refine ⟨?_, ?_, ?_, ?_, ?_⟩
  · intro w pool h
    obtain ⟨x, rfl, -⟩ := h.one
    dsimp only
    split
    · exact ⟨_, rfl⟩
    · exact ⟨_, rfl⟩
  · intro w pool h
    obtain ⟨x, rfl, -⟩ := h.one
    exact ⟨_, rfl⟩
  · intro w pool h
    obtain ⟨x, rfl, hx⟩ := h.one
    exact (hx.answers_integer rfl).map _
  · intro w pool h
    obtain ⟨i, array, rfl, hi, -⟩ := h.two
    exact (hi.answers_integer rfl).bind fun _ => answers_pure _
  · simp

theorem floatDests_answer : ∀ d ∈ floatDests, ∀ w, Matched d.seq w → (d.place w).Answers := by
  simp only [floatDests, List.forall_mem_cons]
  refine ⟨?_, ?_, ?_, ?_⟩
  · intro w h
    obtain ⟨x, rfl, -⟩ := h.one
    exact answers_pure _
  · intro w h
    obtain ⟨x, rfl, hx⟩ := h.one
    exact (hx.answers_integer rfl).map _
  · intro w h
    obtain ⟨i, array, rfl, hi, -⟩ := h.two
    exact (hi.answers_integer rfl).bind fun _ => answers_pure _
  · simp

theorem byteRule_isSound {d : ByteDest} (hd : d ∈ byteDests) {s : ByteSource}
    (hs : s ∈ byteSources) : (byteRule d s).IsSound := by
  have hlen : ∀ s ∈ byteSources, s.alt = [] ∨ s.alt.length = s.seq.length := by decide
  refine ⟨_, rfl, fun w h => Lowering.answers_reading ?_⟩
  obtain ⟨hsource, hdest⟩ := MatchedEither.split (hlen s hs) h
  exact (byteSources_answer s hs _ hsource).bind fun v => byteDests_answer d hd v _ hdest

theorem wordRule_isSound {d : WordDest} (hd : d ∈ wordDests) {s : WordSource}
    (hs : s ∈ wordSources) : (wordRule d s).IsSound := by
  have hlen : ∀ s ∈ wordSources, s.alt = [] ∨ s.alt.length = s.seq.length := by decide
  refine ⟨_, rfl, fun w h => Lowering.answers_reading ?_⟩
  obtain ⟨hsource, hdest⟩ := MatchedEither.split (hlen s hs) h
  rw [MatchedEither.plain] at hdest
  exact (wordDests_answer d hd _ hdest).bind fun p => wordSources_answer s hs _ p hsource

theorem floatRule_isSound {d : FloatDest} (hd : d ∈ floatDests) {s : FloatSource}
    (hs : s ∈ floatSources) : (floatRule d s).IsSound := by
  refine ⟨_, rfl, fun w h pool => ?_⟩
  obtain ⟨hsource, hdest⟩ := (MatchedEither.plain.mp h).split
  have hplace : Answers (OptionT.mk (s.place (w.take s.seq.length) pool).1) :=
    floatSources_answer s hs _ pool hsource
  exact hplace.bind fun _ => (floatDests_answer d hd _ hdest).bind fun _ => answers_pure _

theorem rules_isWellFormed : ∀ r ∈ rules, r.isWellFormed := by decide

theorem rules_isSound : ∀ r ∈ rules, r.IsSound := by
  intro r hr
  simp only [rules, List.mem_append, List.mem_flatMap, List.mem_map] at hr
  rcases hr with (⟨d, hd, s, hs, rfl⟩ | ⟨d, hd, s, hs, rfl⟩) | ⟨d, hd, s, hs, rfl⟩
  · exact byteRule_isSound hd hs
  · exact wordRule_isSound hd hs
  · exact floatRule_isSound hd hs

end Assignment

namespace Idiom

theorem exists_op_of_popsMem {x y : Instr} (h : popsMem x.op y.op) :
    ∃ op, x.op = .known op ∧ op.operand = .int := by
  unfold popsMem at h
  split at h
  case h_6 => exact absurd h Bool.false_ne_true
  all_goals exact ⟨_, ‹x.op = _›, rfl⟩

theorem sameVar_isSound : sameVar.IsSound := by
  refine ⟨_, _, rfl, rfl, fun w hlen _ => ?_⟩
  obtain ⟨x, o, y, rfl⟩ := List.length_eq_three.mp hlen
  exact ⟨_, rfl, fun _ => Lowering.answers_reading (answers_ofOption _)⟩

theorem sameMem_isSound : sameMem.IsSound := by
  refine ⟨_, _, rfl, rfl, fun w hlen hw => ?_⟩
  obtain ⟨x, o, y, rfl⟩ := List.length_eq_three.mp hlen
  refine ⟨_, rfl, fun h => Lowering.answers_reading ?_⟩
  obtain ⟨op, hop, hint⟩ := exists_op_of_popsMem (Bool.and_eq_true_iff.mp h).1
  have hx : x.IsWhole op := ⟨hop, hw x (by simp)⟩
  exact (hx.answers_integer hint).bind fun _ => answers_ofOption _

/-- The constant of a step is there. -/
theorem answers_constant {x y o z : Instr} (h : (step? x y o z).isSome) :
    (operands x y).2.integer.Answers := by
  obtain ⟨s, hs⟩ := Option.isSome_iff_exists.mp h
  simp only [step?, Option.bind_eq_bind, Option.bind_eq_some_iff, Option.ite_none_right_eq_some,
    Bool.and_eq_true] at hs
  obtain ⟨-, -, -, -, -, -, ⟨⟨⟨⟨⟨hconst, -⟩, -⟩, -⟩, -⟩, -⟩, -⟩ := hs
  obtain ⟨v, hv⟩ := Option.isSome_iff_exists.mp hconst
  exact ⟨some v, by rw [Instr.integer, hv]; rfl⟩

theorem addConst_isSound : addConst.IsSound := by
  refine ⟨_, _, rfl, rfl, fun w hlen _ => ?_⟩
  obtain ⟨x, y, o, z, rfl⟩ := List.length_eq_four.mp hlen
  refine ⟨_, rfl, fun h => Lowering.answers_reading ?_⟩
  exact (answers_constant h).bind fun _ => answers_ofOption _

theorem constElement_isSound : constElement.IsSound := by
  refine ⟨_, _, rfl, rfl, fun w hlen hw => ?_⟩
  obtain ⟨i, u, rfl⟩ := List.exists_cons_of_length_eq_add_one hlen
  obtain ⟨x, o, j, y, rfl⟩ := List.length_eq_four.mp (Nat.succ.inj hlen)
  refine ⟨_, rfl, fun h => Lowering.answers_reading ?_⟩
  simp only [Bool.and_eq_true] at h
  obtain ⟨⟨⟨⟨-, hop⟩, -⟩, -⟩, -⟩ := h
  have hi : i.IsWhole .pushByte := ⟨beq_iff_eq.mp hop, hw i (by simp)⟩
  refine (hi.answers_integer rfl).bind fun n => (answers_ofOption _).bind fun width => ?_
  cases width with
  | byte => exact answers_ofOption _
  | word => exact answers_ofOption _

theorem varElement_isSound : varElement.IsSound := by
  refine ⟨_, _, rfl, rfl, fun w hlen _ => ?_⟩
  obtain ⟨i, u, rfl⟩ := List.exists_cons_of_length_eq_add_one hlen
  obtain ⟨x, o, j, y, rfl⟩ := List.length_eq_four.mp (Nat.succ.inj hlen)
  exact ⟨_, rfl, fun _ => Lowering.answers_reading (answers_ofOption _)⟩

theorem all_isSound : ∀ i ∈ all, i.IsSound := by
  simp only [all, List.forall_mem_cons, List.not_mem_nil, false_imp_iff, implies_true, and_true]
  exact ⟨sameVar_isSound, sameMem_isSound, addConst_isSound, constElement_isSound,
    varElement_isSound⟩

end Idiom

namespace Fallback

def Answers (f : Fallback) (x : Instr) : Prop :=
  ∀ scope s, (∃ code, (f scope x s).1 = .ok code) ∧ (f scope x s).2.tally = s.tally

theorem answers_plain (f : Instr → Option Code) (x : Instr) : (plain f).Answers x :=
  fun _ _ => ⟨⟨_, rfl⟩, rfl⟩

theorem answers_reading {f : Instr → Reading Code} {x : Instr} (h : (f x).Answers) :
    (reading f).Answers x :=
  fun _ _ => ⟨h, rfl⟩

theorem answers_label (x : Instr) : label.Answers x := by
  intro scope s
  unfold label
  split
  · exact ⟨⟨_, rfl⟩, rfl⟩
  · split
    · exact ⟨⟨_, rfl⟩, rfl⟩
    · exact ⟨⟨_, rfl⟩, rfl⟩

theorem answers_pushFloat (x : Instr) : pushFloat.Answers x := by
  intro scope s
  unfold pushFloat
  split
  · exact ⟨⟨_, rfl⟩, rfl⟩
  · exact ⟨⟨_, rfl⟩, rfl⟩

end Fallback

open Fallback in
/-- Every opcode has code of its own, which answers for every complete instruction. -/
theorem fallback_answers {x : Instr} {op : Opcode} (hx : x.IsWhole op) :
    ∃ f, fallback? op = some f ∧ f.Answers x := by
  cases op with
  | label => exact ⟨_, rfl, answers_label x⟩
  | breakpoint => exact ⟨_, rfl, fun _ _ => ⟨⟨_, rfl⟩, rfl⟩⟩
  | pushByte | pushWord =>
    exact ⟨_, rfl, answers_reading ((hx.answers_integer rfl).bind fun _ => answers_pure _)⟩
  | pushFloat => exact ⟨_, rfl, answers_pushFloat x⟩
  | _ => exact ⟨_, rfl, answers_plain _ x⟩

end Stack6502
