import Stack6502.Proofs.AskedPatterns

/-!
# The longest pattern wins

Selection looks rules up by the first opcode and keeps the best candidate while it goes along. The
outcome is that of a plain search: of all fragments that idioms and rules offer, in the order of
the catalogs, the first of the longest, and with none of them the code of the first opcode.
-/
namespace Stack6502

open Selection

/-- Whether code is given, and which, does not depend on the literals. -/
def Lowering.IsSteady (lower : Lowering) : Prop :=
  ∀ w pool pool', (lower w pool).1 = (lower w pool').1

theorem Lowering.isSteady_reading (f : List Instr → Reading Code) : (Lowering.reading f).IsSteady :=
  fun _ _ _ => rfl

def Idiom.IsSteady (i : Idiom) : Prop := ∀ lower ∈ i.lowering, lower.IsSteady

def Rule.IsSteady (r : Rule) : Prop := ∀ lower ∈ r.lowering, lower.IsSteady

theorem Lowering.offer?_congr {lowering : Option Lowering} (h : ∀ lower ∈ lowering, lower.IsSteady)
    (name : Text) (w : List Instr) (pool pool' : FloatPool) :
    Lowering.offer? name lowering w pool = Lowering.offer? name lowering w pool' := by
  cases lowering with
  | none => rfl
  | some lower =>
    simp only [Lowering.offer?, Option.bind_eq_bind, Option.bind_some, h lower rfl w pool pool']

theorem Idiom.IsSteady.offer?_congr {i : Idiom} (h : i.IsSteady) (w : List Instr)
    (pool pool' : FloatPool) : i.offer? w pool = i.offer? w pool' := by
  rw [Idiom.offer?, Idiom.offer?, Lowering.offer?_congr h i.name _ pool pool']

theorem Rule.IsSteady.offer?_congr {r : Rule} (h : r.IsSteady) (w : List Instr)
    (pool pool' : FloatPool) : r.offer? w pool = r.offer? w pool' := by
  rw [Rule.offer?, Rule.offer?, Lowering.offer?_congr h r.name _ pool pool']

namespace Catalog

/-- All that idioms and then rules offer on the window, in the order of the catalogs. -/
def candidates (idioms : List Idiom) (rules : List Rule) (w : List Instr) (pool : FloatPool) :
    List Fragment :=
  idioms.filterMap (·.offer? w pool) ++ rules.filterMap (·.offer? w pool)

/-- The literals once all patterns that apply have been asked, in the order of the catalogs. -/
def poolAfter (idioms : List Idiom) (rules : List Rule) (w : List Instr) (pool : FloatPool) :
    FloatPool :=
  rules.foldl (fun pool r => r.poolAfter w pool)
    (idioms.foldl (fun pool i => i.poolAfter w pool) pool)

end Catalog

/-! ### Asking steady patterns -/

namespace Selection

/-- Patterns whose offers do not depend on the literals offer the same wherever they stand in the
list, while the literals go on from one to the next. -/
theorem gather_run {α : Type} {f : α → Selecting (Option Fragment)}
    {offer : α → FloatPool → Option Fragment} {after : α → FloatPool → FloatPool} {l : List α}
    (h : ∀ a ∈ l, ∀ s : Session, (f a).run.run s =
      (.ok (offer a s.pool), { s with pool := after a s.pool }))
    (hsteady : ∀ a ∈ l, ∀ pool pool', offer a pool = offer a pool') (pool : FloatPool)
    (s : Session) : (gather (l.map f)).run.run s =
      (.ok (l.filterMap (offer · pool)),
        { s with pool := l.foldl (fun pool a => after a pool) s.pool }) := by
  induction l generalizing s with
  | nil => rfl
  | cons a l ih =>
    obtain ⟨ha, hl⟩ := List.forall_mem_cons.mp h
    obtain ⟨hoffer, hsteady⟩ := List.forall_mem_cons.mp hsteady
    have hfound : (a :: l).filterMap (offer · pool) =
        (offer a pool).toList ++ l.filterMap (offer · pool) := by
      cases ho : offer a pool <;> simp [ho]
    rw [List.map_cons, gather, run_bind_of_ok (ha s), run_bind_of_ok (ih hl hsteady _),
      hoffer s.pool pool, hfound]
    rfl

theorem offers_run {idioms : List Idiom} {rules : List Rule}
    (hidioms : ∀ i ∈ idioms, i.IsSound ∧ i.IsSteady) (hrules : ∀ r ∈ rules, r.IsSound ∧ r.IsSteady)
    (hwell : ∀ r ∈ rules, r.isWellFormed) {w : List Instr} (hw : ∀ x ∈ w, x.isComplete)
    (s : Session) : (offers idioms rules w).run.run s =
      (.ok (Catalog.candidates idioms rules w s.pool),
        { s with pool := Catalog.poolAfter idioms rules w s.pool }) := by
  have hfirst := gather_run (fun i hi => (hidioms i hi).1.asking_run hw)
    (fun i hi => (hidioms i hi).2.offer?_congr w) s.pool s
  have hrest := gather_run (fun r hr => (hrules r hr).1.asking_run hw (hwell r hr))
    (fun r hr => (hrules r hr).2.offer?_congr w) s.pool
  rw [offers, gather_append, run_bind_of_ok hfirst, run_bind_of_ok (hrest _)]
  rfl

end Selection

/-! ### The index loses no rule and keeps their order -/

namespace Catalog

theorem map_rulesAt {c : Catalog} (h : c.index = indexOf c.rules) (op : Opcode) :
    (c.rulesAt op).map (·.2) = c.rules.filter (·.startsAt op) := by
  rw [rulesAt_eq h]
  conv_rhs => rw [← map_placed c.rules]
  rw [List.filter_map]
  rfl

/-- Among the rules that apply, those found by the first opcode are all, in order. -/
theorem filter_rulesAt {c : Catalog} (hindex : c.index = indexOf c.rules)
    (hwell : ∀ r ∈ c.rules, r.isWellFormed) {x : Instr} {op : Opcode} (hx : x.op = .known op)
    (rest : List Instr) : ((c.rulesAt op).map (·.2)).filter (·.Applies (x :: rest)) =
      c.rules.filter (·.Applies (x :: rest)) := by
  rw [map_rulesAt hindex, List.filter_filter]
  apply List.filter_congr
  intro r hr
  by_cases happlies : r.Applies (x :: rest)
  · rw [happlies.startsAt (hwell r hr) hx, Bool.and_true]
  · rw [decide_eq_false happlies, Bool.false_and]

end Catalog

namespace SelfIndexing

def byteRules : List Rule :=
  Assignment.byteDests.flatMap fun d => Assignment.byteSources.map (Assignment.byteRule d)

/-- `i := table[i]`, where the idiom for work on one variable applies but declines. -/
def code : List Instr :=
  [{ op := .known .pushVarByte, sym := "i" }, { op := .known .readIndexedVarByte, sym := "table" },
   { op := .known .popVarByte, sym := "i" }]

def half : Double := ⟨0x3fe0000000000000⟩

/-- A literal is pushed, for which there is no pattern. -/
def literal : List Instr := [{ op := .known .pushFloat, arg := some (.float half) }]

theorem isSteady_of_reading {f : List Instr → Reading Code} :
    ∀ lower ∈ some (Lowering.reading f), lower.IsSteady := by
  rintro _ ⟨⟩
  exact Lowering.isSteady_reading f

theorem idioms_answer : ∀ i ∈ Idiom.all, i.IsSound ∧ i.IsSteady := by
  intro i hi
  refine ⟨Idiom.all_isSound i hi, ?_⟩
  simp only [Idiom.all, List.mem_cons, List.not_mem_nil, or_false] at hi
  rcases hi with rfl | rfl | rfl | rfl | rfl
  all_goals exact isSteady_of_reading

theorem byteRules_answer : ∀ r ∈ byteRules, r.IsSound ∧ r.IsSteady := by
  intro r hr
  simp only [byteRules, List.mem_flatMap, List.mem_map] at hr
  obtain ⟨d, hd, s, hs, rfl⟩ := hr
  exact ⟨Assignment.byteRule_isSound hd hs, isSteady_of_reading⟩

end SelfIndexing

namespace Catalog

/-- Selection with patterns whose answers do not depend on the session is the plain policy: of the
candidates among all idioms and all rules it takes the first of the longest. Exactly if there is
none it takes the code of the leading opcode, which is asked with the literals that the patterns
leave, and stands for one instruction. At every opcode the index holds all rules that apply there,
in order. -/
theorem select_eq_plain_policy {window : Int} {idioms : List Idiom} {rules : List Rule}
    {c : Catalog} (hmake : make window idioms rules = .ok c)
    (hidioms : ∀ i ∈ idioms, i.IsSound ∧ i.IsSteady) (hrules : ∀ r ∈ rules, r.IsSound ∧ r.IsSteady)
    (scope : Option Text) (code : List Instr) (s : Session) :
    (window < 0 → (c.select scope code).run.run s = (.error .negativeWindow, s)) ∧
    (0 ≤ window → reach window.toNat code = [] → (c.select scope code).run.run s = (.ok none, s)) ∧
    (0 ≤ window → ∀ x rest, reach window.toNat code = x :: rest →
      ∃ op fallback answer t, x.op = .known op ∧ fallback? op = some fallback ∧
        fallback scope x { s with pool := poolAfter idioms rules (x :: rest) s.pool } =
          (.ok answer, t) ∧
        (∀ f ∈ (candidates idioms rules (x :: rest) s.pool).argmax Fragment.size,
          (c.select scope code).run.run s =
            (.ok (some f), { s with pool := poolAfter idioms rules (x :: rest) s.pool })) ∧
        (candidates idioms rules (x :: rest) s.pool = [] →
          (c.select scope code).run.run s = (.ok (answer.map fun code =>
            ⟨"fallback " ++ op.name, code, 1, op == .inlineAssembly⟩), t))) ∧
    ∀ op x rest, x.op = .known op →
      ((c.rulesAt op).map (·.2)).filter (·.Applies (x :: rest)) =
        rules.filter (·.Applies (x :: rest)) := by
  obtain ⟨hwell, -, hc⟩ := make_eq_ok_iff.mp hmake
  refine ⟨fun hneg => ?_, fun hwindow hreach => ?_, fun hwindow x rest hreach => ?_, ?_⟩
  · rw [hc, select, if_pos hneg]
    rfl
  · rw [select_eq_pure hmake hwindow scope hreach]
    rfl
  · have hcomplete : ∀ y ∈ x :: rest, y.isComplete := fun y hy =>
      isComplete_of_mem_reach (hreach ▸ hy)
    obtain ⟨op, hx⟩ := Instr.exists_isWhole (hcomplete x List.mem_cons_self)
    obtain ⟨fallback, hfallback, hanswers⟩ := fallback_answers hx
    obtain ⟨⟨answer, hanswer⟩, -⟩ :=
      hanswers scope { s with pool := poolAfter idioms rules (x :: rest) s.pool }
    refine ⟨op, fallback, answer, _, hx.1, hfallback, Prod.ext hanswer rfl, fun f hf => ?_,
      fun hnone => ?_⟩
    all_goals
      rw [select_eq_offers hmake hwindow scope hreach hx.1,
        run_bind_of_ok (offers_run hidioms hrules hwell hcomplete s)]
    · rw [Option.mem_def.mp hf]
      rfl
    · rw [hnone]
      exact alone_run hfallback (Prod.ext hanswer rfl)
  · intro op x rest hx
    rw [hc]
    exact filter_rulesAt rfl hwell hx rest

open SelfIndexing in
theorem select_eq_plain_policy_selfIndexing : ∃ c f,
    make 6 Idiom.all byteRules = .ok c ∧ f.name = ("byte var = array[var]" : Text) ∧
      (c.select none code).run.run .start = (.ok (some f), .start) ∧
      (c.select none literal).run.run .start =
        (.ok (some ⟨"fallback PUSH_FLOAT",
          Fallback.addressed "push_float" (.name (FloatPool.label 0)), 1, false⟩),
          { Session.start with pool := ⟨[half]⟩ }) := by
  have hwell : ∀ r ∈ byteRules, r.isWellFormed := by decide
  have hspan : ∀ i ∈ Idiom.all, 0 < i.span := by decide
  obtain ⟨c, hmake⟩ : ∃ c, make 6 Idiom.all byteRules = .ok c :=
    ⟨_, make_eq_ok_iff.mpr ⟨hwell, hspan, rfl⟩⟩
  have hname : ((candidates Idiom.all byteRules code .empty).argmax Fragment.size).map (·.name) =
      some ("byte var = array[var]" : Text) := by decide
  obtain ⟨f, hf, hname⟩ := Option.map_eq_some_iff.mp hname
  obtain ⟨-, -, hselect, -⟩ :=
    select_eq_plain_policy hmake idioms_answer byteRules_answer none code .start
  obtain ⟨-, -, -, -, -, -, -, hrun, -⟩ := hselect (by decide) _ _ rfl
  obtain ⟨-, -, hselect, -⟩ :=
    select_eq_plain_policy hmake idioms_answer byteRules_answer none literal .start
  obtain ⟨op, fallback, answer, t, hop, hfallback, hanswer, -, halone⟩ :=
    hselect (by decide) _ _ rfl
  cases hop
  cases hfallback
  cases hanswer
  exact ⟨c, f, hmake, hname, hrun f hf, halone (by decide)⟩

end Catalog

end Stack6502
