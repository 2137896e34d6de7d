import Stack6502.Emit.Assembly

/-!
# Generations do not depend on what went before

A session goes through many generations and selections, and any of them may fail half-way. What it
carries over is of no account to a generation: literals and breakpoints start anew, and the tally
is only added to.
-/
namespace Stack6502

namespace Tally

theorem lookup_addTo (name other : Text) (n : Nat) (counts : List (Text × Nat)) :
    ((addTo name n counts).lookup other).getD 0 =
      (counts.lookup other).getD 0 + if name = other then n else 0 := by
  induction counts with
  | nil =>
    rw [addTo, List.lookup_cons]
    by_cases h : name = other
    · simp [h]
    · simp [h, beq_eq_false_iff_ne.mpr (Ne.symm h)]
  | cons entry rest ih =>
    obtain ⟨first, k⟩ := entry
    rw [addTo]
    by_cases hfirst : first = name
    · rw [if_pos hfirst, List.lookup_cons, List.lookup_cons, hfirst]
      by_cases h : name = other
      · simp [h]
      · simp [h, beq_eq_false_iff_ne.mpr (Ne.symm h)]
    · rw [if_neg hfirst, List.lookup_cons, List.lookup_cons]
      cases hother : other == first with
      | true =>
        have hne : name ≠ other := fun h => hfirst ((beq_iff_eq.mp hother).symm.trans h.symm)
        simp [hne]
      | false => exact ih

theorem count_add (t : Tally) (name other : Text) :
    (t.add name).count other = t.count other + if name = other then 1 else 0 :=
  lookup_addTo name other 1 t.counts

theorem count_foldl_add (names : List Text) (t : Tally) (name : Text) :
    (names.foldl add t).count name = t.count name + names.count name := by
  induction names generalizing t with
  | nil => rfl
  | cons first names ih =>
    rw [List.foldl_cons, ih, count_add, List.count_cons]
    by_cases h : first = name
    · simp [h]
      omega
    · simp [h]

end Tally

/-! ### Computations that only add to the tally -/

/-- Neither the result nor the literals and breakpoints left behind depend on the tally, and
neither do the names that are added to it. -/
structure OnlyTallies {α : Type} (m : StateM Session α) : Prop where
  exists_run : ∀ pool breakpoints, ∃ a pool' breakpoints', ∃ names : List Text, ∀ tally,
    m.run ⟨pool, breakpoints, tally⟩ = (a, ⟨pool', breakpoints', names.foldl Tally.add tally⟩)

namespace OnlyTallies

variable {ε α β : Type}

theorem pure (a : α) : OnlyTallies (Pure.pure a) :=
  ⟨fun pool breakpoints => ⟨a, pool, breakpoints, [], fun _ => rfl⟩⟩

theorem pure_except (a : α) : OnlyTallies (Pure.pure a : ExceptT ε (StateM Session) α).run :=
  pure (Except.ok a)

theorem bind {m : StateM Session α} {f : α → StateM Session β} (hm : OnlyTallies m)
    (hf : ∀ a, OnlyTallies (f a)) : OnlyTallies (m >>= f) := by
  refine ⟨fun pool breakpoints => ?_⟩
  obtain ⟨a, pool', breakpoints', names, hrun⟩ := hm.exists_run pool breakpoints
  obtain ⟨b, pool'', breakpoints'', more, hrun'⟩ := (hf a).exists_run pool' breakpoints'
  refine ⟨b, pool'', breakpoints'', names ++ more, fun tally => ?_⟩
  rw [StateT.run_bind, hrun, List.foldl_append]
  exact hrun' _

theorem bind_except {m : ExceptT ε (StateM Session) α} {f : α → ExceptT ε (StateM Session) β}
    (hm : OnlyTallies m.run) (hf : ∀ a, OnlyTallies (f a).run) : OnlyTallies (m >>= f).run := by
  rw [ExceptT.run_bind]
  refine hm.bind fun r => ?_
  cases r with
  | error e => exact pure _
  | ok a => exact hf a

/-- A step that takes the tally along as it is. -/
theorem modifyGet {f : Session → α × Session}
    (h : ∀ s tally, f { s with tally } = ((f s).1, { (f s).2 with tally })) :
    OnlyTallies (MonadStateOf.modifyGet f) :=
  ⟨fun pool breakpoints => ⟨_, _, _, [], h ⟨pool, breakpoints, .empty⟩⟩⟩

/-- A look at the literals. -/
theorem withPool {f : FloatPool → ExceptT ε (StateM Session) α}
    (hf : ∀ pool, OnlyTallies (f pool).run) : OnlyTallies (get >>= fun s => f s.pool).run :=
  ⟨fun pool breakpoints => (hf pool).exists_run pool breakpoints⟩

theorem forM {xs : List β} {f : β → ExceptT ε (StateM Session) PUnit}
    (hf : ∀ x, OnlyTallies (f x).run) : OnlyTallies (xs.forM f).run := by
  induction xs with
  | nil => exact pure _
  | cons x xs ih => exact (hf x).bind_except fun _ => ih

end OnlyTallies

/-! ### Selection -/

open Fallback in
/-- Only breakpoints and float literals have code that depends on the session and changes it. -/
theorem fallback?_cases {op : Opcode} {f : Fallback} (h : fallback? op = some f) :
    op = .breakpoint ∧ f = breakpoint ∨ op = .pushFloat ∧ f = pushFloat ∨
      ∃ g : Option Text → Instr → Except Defect (Option Code),
        ∀ scope x s, f scope x s = (g scope x, s) := by
  cases op with
  | breakpoint =>
    cases h
    exact .inl ⟨rfl, rfl⟩
  | pushFloat =>
    cases h
    exact .inr (.inl ⟨rfl, rfl⟩)
  | label =>
    cases h
    refine .inr (.inr ⟨fun scope x => (label scope x .start).1, fun scope x s => ?_⟩)
    unfold label
    by_cases hscope : scope = some x.sym
    · simp only [if_pos hscope]
    · by_cases hsym : x.sym.isEmpty
      · simp only [if_neg hscope, if_pos hsym]
      · simp only [if_neg hscope, if_neg hsym]
  | _ =>
    cases h
    exact .inr (.inr ⟨_, fun _ _ _ => rfl⟩)

namespace Selection

theorem ask_onlyTallies (name : Text) (lowering : Option Lowering) (w : List Instr) :
    OnlyTallies (ask name lowering w).run := by
  cases lowering with
  | none => exact .pure _
  | some lower => exact .modifyGet fun _ _ => rfl

theorem consider_onlyTallies (name : Text) (lowering : Option Lowering) (w : List Instr)
    (order : Nat) (best : Option Candidate) :
    OnlyTallies (consider name lowering w order best).run := by
  refine (ask_onlyTallies name lowering w).bind_except fun code => ?_
  cases code with
  | none => exact .pure _
  | some code => exact .pure _

theorem tryIdioms_onlyTallies (w : List Instr) (idioms : List (Idiom × Nat))
    (best : Option Candidate) : OnlyTallies (tryIdioms w idioms best).run := by
  induction idioms generalizing best with
  | nil => exact .pure _
  | cons i rest ih =>
    obtain ⟨i, order⟩ := i
    rw [tryIdioms]
    split
    · exact ih best
    · split
      · exact .pure _
      · refine OnlyTallies.bind_except (.pure _) fun holds => ?_
        cases holds with
        | false => exact ih best
        | true => exact (consider_onlyTallies ..).bind_except ih

theorem tryRules_onlyTallies (w : List Instr) (idioms : Nat) (rules : List PlacedRule)
    (best : Option Candidate) : OnlyTallies (tryRules w idioms rules best).run := by
  induction rules generalizing best with
  | nil => exact .pure _
  | cons r rest ih =>
    obtain ⟨j, r⟩ := r
    rw [tryRules]
    split
    · exact (consider_onlyTallies ..).bind_except ih
    · exact ih best

theorem alone_onlyTallies (scope : Option Text) (op : Opcode) (x : Instr) :
    OnlyTallies (alone scope op x).run := by
  unfold alone
  cases hf : fallback? op with
  | none => exact .pure _
  | some f =>
    refine OnlyTallies.bind_except (.modifyGet fun s tally => ?_) fun code => .pure _
    rcases fallback?_cases hf with ⟨-, rfl⟩ | ⟨-, rfl⟩ | ⟨g, hg⟩
    · rfl
    · unfold Fallback.pushFloat
      cases x.arg with
      | none => rfl
      | some v => rfl
    · rw [hg, hg]

end Selection

namespace Catalog

theorem select_onlyTallies (c : Catalog) (scope : Option Text) (code : List Instr) :
    OnlyTallies (c.select scope code).run := by
  unfold select
  split
  · exact .pure _
  · dsimp only
    split
    · exact .pure _
    · rename_i x rest hreach
      refine (Selection.tryIdioms_onlyTallies ..).bind_except fun best => ?_
      cases x.op with
      | stray n => exact .pure _
      | known op =>
        refine (Selection.tryRules_onlyTallies ..).bind_except fun best => ?_
        cases best with
        | some b => exact .pure _
        | none => exact Selection.alone_onlyTallies scope op x

theorem selectAll_onlyTallies (c : Catalog) (scope : Option Text) (code : List Instr) :
    OnlyTallies (c.selectAll scope code) := by
  fun_induction selectAll c scope code with
  | case1 => exact .pure _
  | case2 x code ih =>
    refine (c.select_onlyTallies scope (x :: code)).bind fun r => ?_
    cases r with
    | error d => exact .pure _
    | ok o =>
      cases o with
      | none => exact .pure _
      | some f => exact (ih f).bind fun _ => .pure _

end Catalog

/-! ### Generation -/

namespace Assembly

theorem lift_onlyTallies {ε α : Type} {m : StateM Session α} (h : OnlyTallies m) :
    OnlyTallies (liftM m : ExceptT ε (StateM Session) α).run := by
  have hbind : (liftM m : ExceptT ε (StateM Session) α).run = m >>= fun a => pure (.ok a) := rfl
  rw [hbind]
  exact h.bind fun a => .pure _

theorem codeText_onlyTallies (c : Catalog) (b : Block) : OnlyTallies (codeText c b).run := by
  unfold codeText
  refine (lift_onlyTallies (c.selectAll_onlyTallies ..)).bind_except fun s => ?_
  refine OnlyTallies.bind_except ⟨fun pool breakpoints => ?_⟩ fun _ => ?_
  · refine ⟨.ok ⟨⟩, pool, breakpoints, s.fragments.map (·.name), fun tally => ?_⟩
    rw [List.foldl_map]
    rfl
  · split
    · exact .pure _
    · exact .pure _
    · exact .pure _

theorem symbolLine_onlyTallies (d : Decl) (v : Value) : OnlyTallies (symbolLine d v).run := by
  unfold symbolLine
  dsimp only
  split
  · refine OnlyTallies.bind_except (.modifyGet fun _ _ => rfl) fun label => ?_
    cases label with
    | none => exact .pure _
    | some label => exact .pure _
  · exact .pure _
  · exact .pure _

theorem symbolTexts_onlyTallies (ds : List Decl) : OnlyTallies (symbolTexts ds).run := by
  induction ds with
  | nil => exact .pure _
  | cons d ds ih =>
    rw [symbolTexts]
    split
    · exact (symbolLine_onlyTallies _ _).bind_except fun _ => ih.bind_except fun _ => .pure _
    · exact ih

theorem blockText_onlyTallies (opts : Options) (heap : Heap) (b : Block) :
    OnlyTallies (blockText opts heap b).run := by
  unfold blockText
  refine OnlyTallies.bind_except ?_ fun symbols => OnlyTallies.bind_except (.pure _) fun storage =>
    (codeText_onlyTallies opts.catalog b).bind_except fun _ => .pure _
  exact (symbolTexts_onlyTallies b.decls).bind fun r => .pure _

theorem blockTexts_onlyTallies (opts : Options) (heap : Heap) (bs : List Block) :
    OnlyTallies (blockTexts opts heap bs).run := by
  induction bs with
  | nil => exact .pure _
  | cons b bs ih =>
    exact (blockText_onlyTallies opts heap b).bind_except fun _ => ih.bind_except fun _ => .pure _

theorem pooled_onlyTallies (x : Double) : OnlyTallies (pooled x).run :=
  .modifyGet fun _ _ => rfl

theorem collectDecl_onlyTallies (block : Text) (d : Decl) :
    OnlyTallies (collectDecl block d).run := by
  unfold collectDecl
  split
  · refine (pooled_onlyTallies _).bind_except fun label => ?_
    split
    · exact .pure _
    · exact .pure _
  · exact .pure _

theorem collectInstr_onlyTallies (block : Text) (x : Instr) :
    OnlyTallies (collectInstr block x).run := by
  unfold collectInstr
  split
  · split
    · refine (pooled_onlyTallies _).bind_except fun label => ?_
      split
      · exact .pure _
      · exact .pure _
    · exact .pure _
  · exact .pure _

theorem collectFloats_onlyTallies (blocks : List Block) : OnlyTallies (collectFloats blocks).run :=
  .forM fun b => (OnlyTallies.forM (collectDecl_onlyTallies b.name)).bind_except fun _ =>
    .forM (collectInstr_onlyTallies b.name)

/-- What is left of a generation once names and target are settled. -/
def body (opts : Options) (q : Program) (heap : Heap) (t : Target) : Assembling Text := do
  collectFloats q.blocks
  let blocks ← blockTexts opts heap q.blocks
  let pool ← ExceptT.mk (pure ((poolText (← get).pool).mapError .literal))
  return peephole (header opts q.name t ++ blocks ++ pool)

theorem body_onlyTallies (opts : Options) (q : Program) (heap : Heap) (t : Target) :
    OnlyTallies (body opts q heap t).run := by
  refine (collectFloats_onlyTallies q.blocks).bind_except fun _ =>
    (blockTexts_onlyTallies opts heap q.blocks).bind_except fun blocks => ?_
  refine OnlyTallies.withPool (f := fun pool =>
    (ExceptT.mk (pure ((poolText pool).mapError .literal)) : Assembling Text) >>= fun pool =>
      pure (peephole (header opts q.name t ++ blocks ++ pool))) fun pool => ?_
  exact OnlyTallies.bind_except (.pure _) fun pool => .pure_except _

section Assemble

variable {opts : Options} {p q : Program} {heap : Heap}

theorem assemble_run_of_rename {fault : NameFault} (hp : p.rename = .error fault) (s : Session) :
    (p.assemble opts heap).run.run s = (.error (.naming fault), s) := by
  rw [Program.assemble, hp]
  rfl

theorem assemble_run_of_target {fault : AssemblyFault} (hp : p.rename = .ok q)
    (ht : target opts q = .error fault) (s : Session) :
    (p.assemble opts heap).run.run s = (.error fault, s) := by
  rw [Program.assemble, hp]
  change (ExceptT.mk (pure (target opts q)) >>= _ : Assembling Text).run.run s = _
  rw [ht]
  rfl

/-- Literals and breakpoints start anew. -/
theorem assemble_run {t : Target} (hp : p.rename = .ok q) (ht : target opts q = .ok t)
    (s : Session) : (p.assemble opts heap).run.run s =
      (body opts q heap t).run.run { s with pool := .empty, breakpoints := 0 } := by
  rw [Program.assemble, hp]
  change (ExceptT.mk (pure (target opts q)) >>= _ : Assembling Text).run.run s = _
  rw [ht]
  rfl

end Assemble

end Assembly

open Assembly in
/-- What a generation yields and the names that it counts are the same in every session. -/
theorem Program.exists_assemble_run (opts : Options) (p : Program) (heap : Heap) :
    ∃ r, ∃ names : List Text, ∀ s, ∃ pool breakpoints, (p.assemble opts heap).run.run s =
      (r, ⟨pool, breakpoints, names.foldl Tally.add s.tally⟩) := by
  cases hp : p.rename with
  | error fault =>
    exact ⟨_, [], fun s => ⟨s.pool, s.breakpoints, assemble_run_of_rename hp s⟩⟩
  | ok q =>
    cases ht : target opts q with
    | error fault =>
      exact ⟨_, [], fun s => ⟨s.pool, s.breakpoints, assemble_run_of_target hp ht s⟩⟩
    | ok t =>
      obtain ⟨r, pool, breakpoints, names, hrun⟩ :=
        (body_onlyTallies opts q heap t).exists_run .empty 0
      exact ⟨r, names, fun s => ⟨pool, breakpoints, (assemble_run hp ht s).trans (hrun s.tally)⟩⟩

/-! ### Histories -/

inductive Session.Step
  | generate (p : Program) (heap : Heap)
  | select (c : Catalog) (code : List Instr)

def Session.step (opts : Options) (s : Session) : Session.Step → Session
  | .generate p heap => ((p.assemble opts heap).run.run s).2
  | .select c code => ((c.select none code).run.run s).2

def Session.after (opts : Options) (history : List Session.Step) : Session :=
  history.foldl (Session.step opts) .start

/-- Whatever session a program meets, its text or fault is that of a new session, and the tally
grows by that of a new session. -/
theorem Program.assemble_run_start (opts : Options) (p : Program) (heap : Heap) (s : Session) :
    ((p.assemble opts heap).run.run s).1 = ((p.assemble opts heap).run.run .start).1 ∧
      ∀ name, ((p.assemble opts heap).run.run s).2.tally.count name =
        s.tally.count name + ((p.assemble opts heap).run.run .start).2.tally.count name := by
  obtain ⟨r, names, hruns⟩ := p.exists_assemble_run opts heap
  obtain ⟨pool, breakpoints, hrun⟩ := hruns s
  obtain ⟨pool', breakpoints', hfresh⟩ := hruns .start
  rw [hrun, hfresh]
  refine ⟨rfl, fun name => ?_⟩
  have hempty : Session.start.tally.count name = 0 := rfl
  rw [Tally.count_foldl_add, Tally.count_foldl_add, hempty, Nat.zero_add]

end Stack6502
