import Stack6502.Proofs.PatternSafety

/-!
# What the patterns offer

Selection asks pattern after pattern and keeps the best answer. The literals of the session may
change on the way, so each pattern is asked with a pool of its own; apart from that the search is
a fold over what the patterns offer.
-/
namespace Stack6502

/-- The fragment that a lowering yields for `w`, if it accepts. -/
def Lowering.offer? (name : Text) (lowering : Option Lowering) (w : List Instr)
    (pool : FloatPool) : Option Fragment := do
  let lower ← lowering
  let code ← (lower w pool).1.toOption.join
  return ⟨name, code, w.length, false⟩

/-- The literals that a lowering leaves once it is asked for `w`. -/
def Lowering.poolAfter (lowering : Option Lowering) (w : List Instr) (pool : FloatPool) :
    FloatPool :=
  lowering.elim pool fun lower => (lower w pool).2

theorem Lowering.of_offer?_eq_some {name : Text} {lowering : Option Lowering} {w : List Instr}
    {pool : FloatPool} {f : Fragment} (h : Lowering.offer? name lowering w pool = some f) :
    ∃ lower code, lowering = some lower ∧ (lower w pool).1 = .ok (some code) ∧
      f = ⟨name, code, w.length, false⟩ := by
  simp only [Lowering.offer?, Option.bind_eq_bind, Option.bind_eq_some_iff, Option.pure_def,
    Option.some.injEq, Option.join_eq_some_iff] at h
  obtain ⟨lower, hlower, code, hcode, rfl⟩ := h
  refine ⟨lower, code, hlower, ?_, rfl⟩
  cases hanswer : (lower w pool).1 with
  | error d => simp [hanswer, Except.toOption] at hcode
  | ok answer => simpa [hanswer, Except.toOption] using hcode

theorem Lowering.offer?_of_eq_ok {name : Text} {lower : Lowering} {w : List Instr}
    {pool : FloatPool} {answer : Option Code} (h : (lower w pool).1 = .ok answer) :
    Lowering.offer? name (some lower) w pool =
      answer.map fun code => ⟨name, code, w.length, false⟩ := by
  cases answer <;> simp [Lowering.offer?, h, Except.toOption]

namespace Rule

/-- The sequence of the rule, or its alternative, stands at the start of the window. -/
def Applies (r : Rule) (w : List Instr) : Prop :=
  r.seq.map .known <+: w.map (·.op) ∨ r.alt ≠ [] ∧ r.alt.map .known <+: w.map (·.op)

instance (r : Rule) (w : List Instr) : Decidable (r.Applies w) :=
  inferInstanceAs (Decidable (_ ∨ _))

def offer? (w : List Instr) (r : Rule) (pool : FloatPool) : Option Fragment :=
  if r.Applies w then Lowering.offer? r.name r.lowering (w.take r.size) pool else none

def poolAfter (w : List Instr) (r : Rule) (pool : FloatPool) : FloatPool :=
  if r.Applies w then Lowering.poolAfter r.lowering (w.take r.size) pool else pool

theorem size_pos {r : Rule} (h : r.isWellFormed) : 0 < r.size := by
  rw [isWellFormed, Bool.and_eq_true] at h
  simpa [size, List.length_pos_iff] using h.1

theorem length_alt {r : Rule} (h : r.isWellFormed) (hne : r.alt ≠ []) : r.alt.length = r.size := by
  rw [isWellFormed, Bool.and_eq_true, Bool.or_eq_true] at h
  exact beq_iff_eq.mp (h.2.resolve_left (by simpa using hne))

theorem opcodesMatch_iff (ops : List Opcode) (w : List Instr) :
    opcodesMatch ops w ↔ ops.map .known <+: w.map (·.op) := by
  induction ops generalizing w with
  | nil => simp [opcodesMatch]
  | cons op ops ih =>
    cases w with
    | nil => simp [opcodesMatch]
    | cons x w =>
      simp only [opcodesMatch, Bool.and_eq_true, ih, List.map_cons, List.cons_prefix_cons]
      rw [Instr.is, beq_iff_eq, eq_comm]

theorem isMatch_iff (r : Rule) (w : List Instr) : r.isMatch w ↔ r.Applies w := by
  rw [isMatch, Bool.or_eq_true, Bool.and_eq_true, opcodesMatch_iff, opcodesMatch_iff, Applies]
  simp

/-- The complete instructions at the start of a window where opcodes stand match them. -/
theorem matched_take {ops : List Opcode} {w : List Instr} (hw : ∀ x ∈ w, x.isComplete)
    (h : ops.map .known <+: w.map (·.op)) : Matched ops (w.take ops.length) := by
  induction ops generalizing w with
  | nil => exact .nil
  | cons op ops ih =>
    cases w with
    | nil => simp at h
    | cons x w =>
      rw [List.map_cons, List.map_cons, List.cons_prefix_cons] at h
      obtain ⟨hx, hw'⟩ := List.forall_mem_cons.mp hw
      exact .cons ⟨h.1.symm, hx⟩ (ih hw' h.2)

theorem Applies.matchedEither {r : Rule} {w : List Instr} (h : r.Applies w)
    (hwell : r.isWellFormed) (hw : ∀ x ∈ w, x.isComplete) :
    MatchedEither r.seq r.alt (w.take r.size) := by
  rcases h with hseq | ⟨hne, halt⟩
  · exact .inl (matched_take hw hseq)
  · exact .inr ⟨hne, length_alt hwell hne ▸ matched_take hw halt⟩

end Rule

namespace Idiom

def Applies (i : Idiom) (w : List Instr) : Prop :=
  i.span ≤ w.length ∧ i.predicate.map (· (w.take i.span)) = some (.ok true)

instance (i : Idiom) (w : List Instr) : Decidable (i.Applies w) :=
  inferInstanceAs (Decidable (_ ∧ _))

def offer? (w : List Instr) (i : Idiom) (pool : FloatPool) : Option Fragment :=
  if i.Applies w then Lowering.offer? i.name i.lowering (w.take i.span) pool else none

def poolAfter (w : List Instr) (i : Idiom) (pool : FloatPool) : FloatPool :=
  if i.Applies w then Lowering.poolAfter i.lowering (w.take i.span) pool else pool

structure Lowers (i : Idiom) (w : List Instr) (code : Code) : Prop where
  length : w.length = i.span
  predicate : i.predicate.map (· w) = some (.ok true)
  lowering : ∃ lower pool, i.lowering = some lower ∧ (lower w pool).1 = .ok (some code)

theorem lowers_of_offer? {i : Idiom} {w : List Instr} {pool : FloatPool} {f : Fragment}
    (h : i.offer? w pool = some f) : i.Lowers (w.take i.span) f.code := by
  obtain ⟨⟨hspan, hp⟩, hoffer⟩ := Option.ite_none_right_eq_some.mp h
  obtain ⟨lower, code, hlower, hcode, rfl⟩ := Lowering.of_offer?_eq_some hoffer
  exact ⟨List.length_take_of_le hspan, hp, lower, pool, hlower, hcode⟩

end Idiom

/-- What a pattern offers, whatever the literals, and its place in the catalog. -/
abbrev Bid := (FloatPool → Option Fragment) × Nat

/-- The better of the best candidate so far and what a pattern in place `order` offers. -/
def Candidate.keep (best : Option Candidate) (order : Nat) : Option Fragment → Option Candidate
  | none => best
  | some f => Candidate.best best ⟨f, order⟩

theorem Candidate.mem_best {best : Option Candidate} {b c : Candidate}
    (h : b ∈ Candidate.best best c) : b = c ∨ b ∈ best := by
  unfold Candidate.best at h
  split at h
  · exact .inl (Option.mem_some.mp h).symm
  · split at h
    · exact .inl (Option.mem_some.mp h).symm
    · exact .inr h

/-- Patterns asked one after another, each with some pool, lead from one best candidate to
another. -/
inductive Considered : List Bid → Option Candidate → Option Candidate → Prop
  | nil (best : Option Candidate) : Considered [] best best
  | cons {bid : Bid} {bids : List Bid} {best last : Option Candidate} (pool : FloatPool) :
    Considered bids (Candidate.keep best bid.2 (bid.1 pool)) last →
    Considered (bid :: bids) best last

theorem Considered.append {bids more : List Bid} {best mid last : Option Candidate}
    (h : Considered bids best mid) (hmore : Considered more mid last) :
    Considered (bids ++ more) best last := by
  induction h with
  | nil => exact hmore
  | cons pool _ ih => exact .cons pool (ih hmore)

/-- What holds of all fragments offered holds of the best one. -/
theorem Considered.forall_of_forall {P : Fragment → Prop} {bids : List Bid}
    {best last : Option Candidate} (h : Considered bids best last)
    (hbids : ∀ bid ∈ bids, ∀ pool, ∀ f ∈ bid.1 pool, P f) (hbest : ∀ b ∈ best, P b.fragment) :
    ∀ b ∈ last, P b.fragment := by
  induction h with
  | nil => exact hbest
  | @cons bid bids best last pool _ ih =>
    obtain ⟨hbid, hrest⟩ := List.forall_mem_cons.mp hbids
    apply ih hrest
    intro b hb
    cases hoffer : bid.1 pool with
    | none =>
      rw [hoffer] at hb
      exact hbest b hb
    | some f =>
      rw [hoffer] at hb
      rcases Candidate.mem_best hb with rfl | hb
      · exact hbid pool f hoffer
      · exact hbest b hb

theorem run_bind_of_ok {ε σ α β : Type} {m : ExceptT ε (StateM σ) α}
    {f : α → ExceptT ε (StateM σ) β} {s t : σ} {a : α} (h : m.run.run s = (.ok a, t)) :
    (m >>= f).run.run s = (f a).run.run t := by
  rw [ExceptT.run_bind, StateT.run_bind, h]
  rfl

theorem of_run_bind_eq_ok {ε σ α β : Type} {m : ExceptT ε (StateM σ) α}
    {f : α → ExceptT ε (StateM σ) β} {s u : σ} {b : β} (h : (m >>= f).run.run s = (.ok b, u)) :
    ∃ a t, m.run.run s = (.ok a, t) ∧ (f a).run.run t = (.ok b, u) := by
  cases hm : m.run.run s with
  | mk r t =>
    rw [ExceptT.run_bind, StateT.run_bind, hm] at h
    cases r with
    | error e => cases h
    | ok a => exact ⟨a, t, rfl, h⟩

theorem of_pure_eq_ok {ε σ α : Type} {s t : σ} {a b : α}
    (h : (pure a : ExceptT ε (StateM σ) α).run.run s = (.ok b, t)) : a = b ∧ s = t := by
  cases h
  exact ⟨rfl, rfl⟩

theorem adapt_eq_ok_iff {ε ε' σ α : Type} {f : ε → ε'} {m : ExceptT ε (StateM σ) α} {s t : σ}
    {a : α} : (m.adapt f).run.run s = (.ok a, t) ↔ m.run.run s = (.ok a, t) := by
  have hrun : (m.adapt f).run.run s = ((m.run.run s).1.mapError f, (m.run.run s).2) := rfl
  rw [hrun]
  cases hm : m.run.run s with
  | mk r u =>
    cases r with
    | error e => exact ⟨fun h => (by cases h), fun h => (by cases h)⟩
    | ok b => exact ⟨fun h => (by cases h; rfl), fun h => (by cases h; rfl)⟩

theorem of_mapError_eq_ok {ε ε' σ α : Type} {f : ε → ε'} {e : Except ε α} {s t : σ} {a : α}
    (h : (ExceptT.mk (pure (e.mapError f)) : ExceptT ε' (StateM σ) α).run.run s = (.ok a, t)) :
    e = .ok a ∧ t = s := by
  cases e with
  | error e => cases h
  | ok a =>
    cases h
    exact ⟨rfl, rfl⟩

/-- The computation meets no defect, changes at most the literals of the session, and its answer
has the property. -/
def Selecting.Gives {α : Type} (m : Selecting α) (P : α → Prop) : Prop :=
  ∀ s : Session, ∃ a pool, m.run.run s = (.ok a, { s with pool }) ∧ P a

namespace Selecting.Gives

variable {α β : Type} {P : α → Prop} {Q : β → Prop}

theorem pure {a : α} (h : P a) : Gives (Pure.pure a) P := fun s => ⟨a, s.pool, rfl, h⟩

theorem mono {m : Selecting α} {R : α → Prop} (h : Gives m P) (hPR : ∀ a, P a → R a) :
    Gives m R := by
  intro s
  obtain ⟨a, pool, hrun, ha⟩ := h s
  exact ⟨a, pool, hrun, hPR a ha⟩

theorem bind {m : Selecting α} {f : α → Selecting β} (hm : Gives m P)
    (hf : ∀ a, P a → Gives (f a) Q) : Gives (m >>= f) Q := by
  intro s
  obtain ⟨a, pool, hrun, ha⟩ := hm s
  obtain ⟨b, pool', hrun', hb⟩ := hf a ha { s with pool }
  exact ⟨b, pool', (run_bind_of_ok hrun).trans hrun', hb⟩

end Selecting.Gives

def Selection.asking (name : Text) (lowering : Option Lowering) (w : List Instr) :
    Selecting (Option Fragment) := do
  return (← ask name lowering w).map fun code => ⟨name, code, w.length, false⟩

theorem Selection.asking_run (name : Text) {lower : Lowering} {w : List Instr}
    (h : lower.Answers w) (s : Session) : (asking name (some lower) w).run.run s =
      (.ok (Lowering.offer? name (some lower) w s.pool),
        { s with pool := Lowering.poolAfter (some lower) w s.pool }) := by
  obtain ⟨code, hcode⟩ := h s.pool
  have hask : (ask name (some lower) w).run.run s =
      (.ok code, { s with pool := (lower w s.pool).2 }) := by
    rw [← hcode]
    rfl
  rw [asking, run_bind_of_ok hask, Lowering.offer?_of_eq_ok hcode]
  rfl

section Asking

open Selection Selecting

def Idiom.asking (w : List Instr) (i : Idiom) : Selecting (Option Fragment) := do
  if i.span > w.length then return none
  else match i.predicate with
    | none => throw (.noPredicate i.name)
    | some p =>
      if ← Selection.liftExcept (p (w.take i.span)) then
        Selection.asking i.name i.lowering (w.take i.span)
      else return none

def Rule.asking (w : List Instr) (r : Rule) : Selecting (Option Fragment) :=
  if r.isMatch w then Selection.asking r.name r.lowering (w.take r.size) else return none

variable {w : List Instr} (hw : ∀ x ∈ w, x.isComplete)
include hw

theorem Idiom.IsSound.asking_run {i : Idiom} (h : i.IsSound) (s : Session) :
    (i.asking w).run.run s =
      (.ok (i.offer? w s.pool), { s with pool := i.poolAfter w s.pool }) := by
  obtain ⟨p, lower, hp, hlower, hanswers⟩ := h
  rw [Idiom.offer?, Idiom.poolAfter, Idiom.asking]
  by_cases hspan : i.span ≤ w.length
  · have hlen : (w.take i.span).length = i.span := List.length_take_of_le hspan
    obtain ⟨b, hb, hcode⟩ := hanswers _ hlen fun x hx => hw x (List.mem_of_mem_take hx)
    have hlift : (liftExcept (p (w.take i.span))).run.run s = (.ok b, s) := by
      rw [hb]
      rfl
    rw [if_neg (Nat.not_lt.mpr hspan)]
    simp only [hp, run_bind_of_ok hlift]
    cases b with
    | false =>
      have hnot : ¬ i.Applies w := by simp [Idiom.Applies, hp, hb]
      rw [if_neg hnot, if_neg hnot]
      rfl
    | true =>
      have happlies : i.Applies w := ⟨hspan, by simp [hp, hb]⟩
      rw [if_pos happlies, if_pos happlies, hlower]
      exact Selection.asking_run i.name (hcode rfl) s
  · have hnot : ¬ i.Applies w := fun happlies => hspan happlies.1
    rw [if_pos (Nat.lt_of_not_le hspan), if_neg hnot, if_neg hnot]
    rfl

theorem Rule.IsSound.asking_run {r : Rule} (h : r.IsSound) (hwell : r.isWellFormed)
    (s : Session) : (r.asking w).run.run s =
      (.ok (r.offer? w s.pool), { s with pool := r.poolAfter w s.pool }) := by
  obtain ⟨lower, hlower, hanswers⟩ := h
  rw [Rule.offer?, Rule.poolAfter, Rule.asking]
  by_cases happlies : r.Applies w
  · rw [if_pos ((r.isMatch_iff w).mpr happlies), if_pos happlies, if_pos happlies, hlower]
    exact Selection.asking_run r.name (hanswers _ (happlies.matchedEither hwell hw)) s
  · rw [if_neg (mt (r.isMatch_iff w).mp happlies), if_neg happlies, if_neg happlies]
    rfl

theorem Idiom.IsSound.asking_gives {i : Idiom} (h : i.IsSound) :
    Gives (i.asking w) fun o => ∃ pool, o = i.offer? w pool :=
  fun s => ⟨_, _, h.asking_run hw s, s.pool, rfl⟩

theorem Rule.IsSound.asking_gives {r : Rule} (h : r.IsSound) (hwell : r.isWellFormed) :
    Gives (r.asking w) fun o => ∃ pool, o = r.offer? w pool :=
  fun s => ⟨_, _, h.asking_run hw hwell s, s.pool, rfl⟩

end Asking

namespace Selection

open Selecting

/-- Patterns asked in turn, with their places, while the best candidate is kept. -/
def consult : List (Selecting (Option Fragment) × Nat) → Option Candidate →
    Selecting (Option Candidate)
  | [], best => return best
  | (m, order) :: rest, best => do
    let o ← m
    consult rest (Candidate.keep best order o)

theorem consider_bind {β : Type} (name : Text) (lowering : Option Lowering) (w : List Instr)
    (order : Nat) (best : Option Candidate) (k : Option Candidate → Selecting β) :
    consider name lowering w order best >>= k =
      asking name lowering w >>= fun o => k (Candidate.keep best order o) := by
  rw [consider, asking, bind_assoc, bind_assoc]
  congr 1
  funext code
  cases code with
  | none => simp [Candidate.keep]
  | some code => simp [Candidate.keep]

theorem tryIdioms_eq_consult (w : List Instr) (idioms : List (Idiom × Nat))
    (best : Option Candidate) :
    tryIdioms w idioms best = consult (idioms.map fun i => (i.1.asking w, i.2)) best := by
  induction idioms generalizing best with
  | nil => rfl
  | cons i rest ih =>
    obtain ⟨i, order⟩ := i
    rw [tryIdioms, List.map_cons, consult]
    by_cases hspan : i.span > w.length
    · simp [Idiom.asking, hspan, ih, Candidate.keep]
    · cases hp : i.predicate with
      | none =>
        simp only [Idiom.asking, hspan, hp, if_false]
        rfl
      | some p =>
        rw [Idiom.asking, if_neg hspan, if_neg hspan, hp]
        simp only [bind_assoc]
        congr 1
        funext holds
        cases holds with
        | false => simp [ih, Candidate.keep]
        | true => simp only [if_true, consider_bind, ih]

theorem tryRules_eq_consult (w : List Instr) (idioms : Nat) (rules : List PlacedRule)
    (best : Option Candidate) :
    tryRules w idioms rules best =
      consult (rules.map fun r => (r.2.asking w, idioms + r.1)) best := by
  induction rules generalizing best with
  | nil => rfl
  | cons r rest ih =>
    obtain ⟨j, r⟩ := r
    rw [tryRules, List.map_cons, consult, Rule.asking]
    split
    · rw [consider_bind]
      simp only [ih]
    · simp [ih, Candidate.keep]

/-- Patterns that make their bids one by one make them in turn. -/
theorem consult_gives {α : Type} {f : α → Selecting (Option Fragment) × Nat}
    {bid : α → Bid} {l : List α} (hplace : ∀ a ∈ l, (f a).2 = (bid a).2)
    (h : ∀ a ∈ l, Gives (f a).1 fun o => ∃ pool, o = (bid a).1 pool) (best : Option Candidate) :
    Gives (consult (l.map f) best) (Considered (l.map bid) best) := by
  induction l generalizing best with
  | nil => exact .pure (.nil best)
  | cons a l ih =>
    obtain ⟨ha, hl⟩ := List.forall_mem_cons.mp h
    obtain ⟨horder, hplace⟩ := List.forall_mem_cons.mp hplace
    refine ha.bind fun o ho => ?_
    obtain ⟨pool, rfl⟩ := ho
    rw [horder]
    exact (ih hplace hl _).mono fun last hlast => .cons pool hlast

def idiomBids (w : List Instr) (idioms : List (Idiom × Nat)) : List Bid :=
  idioms.map fun i => (i.1.offer? w, i.2)

def ruleBids (w : List Instr) (idioms : Nat) (rules : List PlacedRule) : List Bid :=
  rules.map fun r => (r.2.offer? w, idioms + r.1)

theorem tryIdioms_gives {w : List Instr} (hw : ∀ x ∈ w, x.isComplete) (idioms : List (Idiom × Nat))
    (h : ∀ i ∈ idioms, i.1.IsSound) (best : Option Candidate) :
    Gives (tryIdioms w idioms best) (Considered (idiomBids w idioms) best) := by
  rw [tryIdioms_eq_consult]
  exact consult_gives (fun _ _ => rfl) (fun i hi => (h i hi).asking_gives hw) best

theorem tryRules_gives {w : List Instr} (hw : ∀ x ∈ w, x.isComplete) (idioms : Nat)
    (rules : List PlacedRule) (h : ∀ r ∈ rules, r.2.isWellFormed ∧ r.2.IsSound)
    (best : Option Candidate) :
    Gives (tryRules w idioms rules best) (Considered (ruleBids w idioms rules) best) := by
  rw [tryRules_eq_consult]
  exact consult_gives (fun _ _ => rfl) (fun r hr => (h r hr).2.asking_gives hw (h r hr).1) best

theorem alone_run {op : Opcode} {f : Fallback} (hf : fallback? op = some f) {scope : Option Text}
    {x : Instr} {s t : Session} {c : Option Code} (h : f scope x s = (.ok c, t)) :
    (alone scope op x).run.run s =
      (.ok (c.map (⟨"fallback " ++ op.name, ·, 1, op == .inlineAssembly⟩)), t) := by
  have hrun : (ExceptT.mk (modifyGet (f scope x)) : Selecting (Option Code)).run.run s =
      (.ok c, t) := h
  simp only [alone, hf]
  rw [run_bind_of_ok hrun]
  rfl

end Selection

/-- Numbers increase along a numbered list. -/
theorem pairwise_zipIdx {α : Type} (l : List α) : l.zipIdx.Pairwise (·.2 < ·.2) := by
  have h : (l.zipIdx.map (·.2)).Pairwise (· < ·) := by
    rw [List.zipIdx_map_snd]
    exact List.pairwise_lt_range'
  exact List.pairwise_map.mp h

namespace Catalog

open Selection

theorem make_eq_ok_iff {window : Int} {idioms : List Idiom} {rules : List Rule} {c : Catalog} :
    make window idioms rules = .ok c ↔ (∀ r ∈ rules, r.isWellFormed) ∧ (∀ i ∈ idioms, 0 < i.span) ∧
      c = ⟨window, idioms, rules, indexOf rules⟩ := by
  unfold make
  cases hr : rules.find? (!·.isWellFormed) with
  | some r =>
    have hbad : ¬ ∀ r ∈ rules, r.isWellFormed := fun h => by
      simpa [h r (List.mem_of_find?_eq_some hr)] using List.find?_some hr
    simp [hbad]
  | none =>
    have hrules : ∀ r ∈ rules, r.isWellFormed := by simpa using List.find?_eq_none.mp hr
    cases hi : idioms.find? (·.span == 0) with
    | some i =>
      have hbad : ¬ ∀ i ∈ idioms, 0 < i.span := fun h => by
        have hzero := List.find?_some hi
        exact Nat.ne_of_gt (h i (List.mem_of_find?_eq_some hi)) (beq_iff_eq.mp hzero)
      simp [hbad]
    | none =>
      have hidioms : ∀ i ∈ idioms, 0 < i.span := by
        simpa [Nat.pos_iff_ne_zero] using List.find?_eq_none.mp hi
      rw [and_iff_right hrules, and_iff_right hidioms, Except.ok.injEq, eq_comm]

structure IsSound (c : Catalog) : Prop where
  idioms : ∀ i ∈ c.idioms, i.IsSound
  span_pos : ∀ i ∈ c.idioms, 0 < i.span
  rules : ∀ r ∈ c.rules, r.IsSound
  isWellFormed : ∀ r ∈ c.rules, r.isWellFormed
  index : c.index = indexOf c.rules

theorem rulesAt_eq {c : Catalog} (h : c.index = indexOf c.rules) (op : Opcode) :
    c.rulesAt op = (placed c.rules).filter (·.2.startsAt op) := by
  rw [rulesAt, h, indexOf, List.lookup_graph _ op.mem_all]
  rfl

theorem mem_of_mem_placed {rules : List Rule} {r : PlacedRule} (h : r ∈ placed rules) :
    r.2 ∈ rules := by
  obtain ⟨⟨rule, j⟩, hmem, rfl⟩ := List.mem_map.mp h
  exact List.fst_mem_of_mem_zipIdx hmem

theorem mem_of_mem_rulesAt {c : Catalog} (h : c.index = indexOf c.rules) {op : Opcode}
    {r : PlacedRule} (hr : r ∈ c.rulesAt op) : r.2 ∈ c.rules := by
  rw [rulesAt_eq h] at hr
  exact mem_of_mem_placed (List.mem_of_mem_filter hr)

def bids (c : Catalog) (op : Opcode) (w : List Instr) : List Bid :=
  idiomBids w c.idioms.zipIdx ++ ruleBids w c.idioms.length (c.rulesAt op)

theorem isComplete_of_mem_reach {window : Nat} {code : List Instr} {x : Instr}
    (h : x ∈ reach window code) : x.isComplete :=
  List.all_eq_true.mp List.all_takeWhile x h

/-- Selection by cases: nothing is in reach, or the best offer of the patterns is taken, or with no
offer at all the code of the first instruction on its own. -/
theorem select_cases {c : Catalog} (hc : c.IsSound) (hwindow : 0 ≤ c.window) (scope : Option Text)
    (code : List Instr) (s : Session) :
    (reach c.window.toNat code = [] ∧ (c.select scope code).run.run s = (.ok none, s)) ∨
    ∃ x rest op best pool, reach c.window.toNat code = x :: rest ∧ x.IsWhole op ∧
      Considered (c.bids op (x :: rest)) none best ∧
      (c.select scope code).run.run s = match best with
        | some b => (.ok (some b.fragment), { s with pool })
        | none => (alone scope op x).run.run { s with pool } := by
  unfold select
  rw [if_neg (Int.not_lt.mpr hwindow)]
  cases hw : reach c.window.toNat code with
  | nil => exact .inl ⟨rfl, rfl⟩
  | cons x rest =>
    have hcomplete : ∀ y ∈ x :: rest, y.isComplete := fun y hy =>
      isComplete_of_mem_reach (hw ▸ hy)
    obtain ⟨op, hx⟩ := Instr.exists_isWhole (hcomplete x (List.mem_cons_self ..))
    have hidioms := tryIdioms_gives hcomplete c.idioms.zipIdx
      (fun i hi => hc.idioms i.1 (List.fst_mem_of_mem_zipIdx hi)) none
    have hrules := tryRules_gives hcomplete c.idioms.length (c.rulesAt op) fun r hr =>
      have hmem := mem_of_mem_rulesAt hc.index hr
      ⟨hc.isWellFormed _ hmem, hc.rules _ hmem⟩
    obtain ⟨first, pool', hfirst, hconsidered⟩ := hidioms s
    obtain ⟨best, pool, hbest, hconsidered'⟩ := hrules first { s with pool := pool' }
    refine .inr ⟨x, rest, op, best, pool, rfl, hx, hconsidered.append hconsidered', ?_⟩
    rw [run_bind_of_ok hfirst]
    simp only [hx.1]
    rw [run_bind_of_ok hbest]
    cases best with
    | none => rfl
    | some b => rfl

end Catalog

end Stack6502
