import Stack6502.Proofs.DeclinedInstructions
import Stack6502.Proofs.SelectionPolicy

/-!
# Wider windows

Selection looks ahead as far as its window. A wider window shows every pattern at least what a
narrower one shows, so that a fragment found stays on offer. Beyond the longest pattern nothing new
comes into sight, and selection is the same step by step.
-/
namespace Stack6502

open Selection Selecting

/-! ### Patterns whose consent does not depend on the literals -/

/-- Whether code is given does not depend on the literals; which code it is may. -/
def Lowering.IsFirm (lower : Lowering) : Prop :=
  ∀ w pool pool', (lower w pool).1.map Option.isSome = (lower w pool').1.map Option.isSome

def Idiom.IsFirm (i : Idiom) : Prop := ∀ lower ∈ i.lowering, lower.IsFirm

def Rule.IsFirm (r : Rule) : Prop := ∀ lower ∈ r.lowering, lower.IsFirm

theorem Lowering.IsSteady.isFirm {lower : Lowering} (h : lower.IsSteady) : lower.IsFirm :=
  fun w pool pool' => by rw [h w pool pool']

/-- What a firm lowering offers with some literals it offers with any, in the same length. -/
theorem Lowering.exists_offer? {lowering : Option Lowering} (h : ∀ lower ∈ lowering, lower.IsFirm)
    {name : Text} {w : List Instr} {pool : FloatPool} {f : Fragment}
    (hf : Lowering.offer? name lowering w pool = some f) (pool' : FloatPool) :
    ∃ g, Lowering.offer? name lowering w pool' = some g ∧ g.size = f.size := by
  obtain ⟨lower, code, rfl, hcode, rfl⟩ := Lowering.of_offer?_eq_some hf
  have hfirm := h lower rfl w pool pool'
  rw [hcode] at hfirm
  cases hanswer : (lower w pool').1 with
  | error d => rw [hanswer] at hfirm; cases hfirm
  | ok answer =>
    rw [hanswer, Except.map, Except.map, Except.ok.injEq, Option.isSome_some] at hfirm
    obtain ⟨code', rfl⟩ := Option.isSome_iff_exists.mp hfirm.symm
    exact ⟨_, Lowering.offer?_of_eq_ok hanswer, rfl⟩

theorem Idiom.IsFirm.exists_offer? {i : Idiom} (h : i.IsFirm) {w : List Instr} {pool : FloatPool}
    {f : Fragment} (hf : i.offer? w pool = some f) (pool' : FloatPool) :
    ∃ g, i.offer? w pool' = some g ∧ g.size = f.size := by
  obtain ⟨happlies, hf⟩ := Option.ite_none_right_eq_some.mp hf
  rw [Idiom.offer?, if_pos happlies]
  exact Lowering.exists_offer? h hf pool'

theorem Rule.IsFirm.exists_offer? {r : Rule} (h : r.IsFirm) {w : List Instr} {pool : FloatPool}
    {f : Fragment} (hf : r.offer? w pool = some f) (pool' : FloatPool) :
    ∃ g, r.offer? w pool' = some g ∧ g.size = f.size := by
  obtain ⟨happlies, hf⟩ := Option.ite_none_right_eq_some.mp hf
  rw [Rule.offer?, if_pos happlies]
  exact Lowering.exists_offer? h hf pool'

/-! ### The patterns of the catalogs are firm -/

theorem FloatPool.isSome_add (pool : FloatPool) (x : Double) :
    (pool.add x).1.isSome = !x.isNaN := by
  cases hnan : x.isNaN with
  | true => simp [FloatPool.add, hnan]
  | false =>
    obtain ⟨label, pool', hadd⟩ := pool.exists_add hnan
    simp [hadd]

/-- Whether two readings have a joint result depends on whether each has one. -/
theorem Reading.map_isSome_bind {α β γ : Type} (r : Reading α) (k : Reading β) (f : α → β → γ) :
    (r >>= fun a => k >>= fun b => pure (f a b)).run.map Option.isSome =
      (r.run.map Option.isSome).bind fun b => if b then k.run.map Option.isSome else .ok false := by
  rw [OptionT.run_bind]
  rcases hr : r.run with d | _ | a
  · rfl
  · rfl
  · rcases hk : k.run with d | _ | b
    all_goals
      change (OptionT.run (k >>= fun b => pure (f a b))).map Option.isSome = _
      rw [OptionT.run_bind, hk]
      rfl

namespace Assignment

/-- The literal of a constant has a label or not, whatever literals there are. -/
theorem floatSources_isFirm : ∀ s ∈ floatSources, ∀ w pool pool',
    (s.place w pool).1.map Option.isSome = (s.place w pool').1.map Option.isSome := by
  simp only [floatSources, List.forall_mem_cons]
  refine ⟨fun w pool pool' => ?_, fun w pool pool' => ?_, fun w pool pool' => ?_,
    fun w pool pool' => ?_, by simp⟩
  · rcases w with _ | ⟨x, _ | _⟩
    · rfl
    · cases harg : x.arg with
      | none => simp only [harg]
      | some v => simp [harg, Except.map, FloatPool.isSome_add]
    · rfl
  · rcases w with _ | ⟨x, _ | _⟩ <;> rfl
  · rcases w with _ | ⟨x, _ | _⟩ <;> rfl
  · rcases w with _ | ⟨i, _ | ⟨array, _ | _⟩⟩ <;> rfl

theorem rules_isFirm : ∀ r ∈ rules, r.IsFirm := by
  intro r hr
  simp only [rules, List.mem_append, List.mem_flatMap, List.mem_map] at hr
  rcases hr with (⟨d, -, s, -, rfl⟩ | ⟨d, -, s, -, rfl⟩) | ⟨d, -, s, hs, rfl⟩
  · rintro _ ⟨⟩
    exact (Lowering.isSteady_reading _).isFirm
  · rintro _ ⟨⟩
    exact (Lowering.isSteady_reading _).isFirm
  · rintro _ ⟨⟩ w pool pool'
    have hsource := floatSources_isFirm s hs (w.take s.seq.length) pool pool'
    exact (Reading.map_isSome_bind _ _ _).trans (hsource ▸ (Reading.map_isSome_bind _ _ _).symm)

end Assignment

theorem Idiom.all_isFirm : ∀ i ∈ Idiom.all, i.IsFirm :=
  fun i hi lower hlower => ((SelfIndexing.idioms_answer i hi).2 lower hlower).isFirm

/-! ### A longer view -/

section Prefix

variable {w v : List Instr} {pool : FloatPool} {f : Fragment}

theorem Rule.Applies.size_le {r : Rule} (hwell : r.isWellFormed) (h : r.Applies w) :
    r.size ≤ w.length := by
  rcases h with hseq | ⟨hne, halt⟩
  · simpa [Rule.size] using hseq.length_le
  · simpa [Rule.length_alt hwell hne] using halt.length_le

theorem Idiom.offer?_extend {i : Idiom} (h : w <+: v) (hf : i.offer? w pool = some f) :
    i.offer? v pool = some f := by
  obtain ⟨⟨hspan, hp⟩, hf⟩ := Option.ite_none_right_eq_some.mp hf
  obtain ⟨t, rfl⟩ := h
  have htake : (w ++ t).take i.span = w.take i.span := List.take_append_of_le_length hspan
  have happlies : i.Applies (w ++ t) := by
    refine ⟨?_, htake ▸ hp⟩
    rw [List.length_append]
    omega
  rw [Idiom.offer?, if_pos happlies, htake, hf]

theorem Rule.offer?_extend {r : Rule} (hwell : r.isWellFormed) (h : w <+: v)
    (hf : r.offer? w pool = some f) : r.offer? v pool = some f := by
  obtain ⟨happlies, hf⟩ := Option.ite_none_right_eq_some.mp hf
  have hops : w.map (·.op) <+: v.map (·.op) := h.map _
  have happlies' : r.Applies v :=
    happlies.imp (·.trans hops) (fun halt => ⟨halt.1, halt.2.trans hops⟩)
  obtain ⟨t, rfl⟩ := h
  rw [Rule.offer?, if_pos happlies', List.take_append_of_le_length (happlies.size_le hwell), hf]

end Prefix

namespace Selection

variable {idioms : List Idiom} {rules : List Rule} {w v : List Instr} {f : Fragment}

theorem Offered.extend (hwell : ∀ r ∈ rules, r.isWellFormed) (h : w <+: v)
    (hf : Offered idioms rules w f) : Offered idioms rules v f := by
  rcases hf with ⟨i, hi, pool, hf⟩ | ⟨r, hr, pool, hf⟩
  · exact .inl ⟨i, hi, pool, Idiom.offer?_extend h hf⟩
  · exact .inr ⟨r, hr, pool, Rule.offer?_extend (hwell r hr) h hf⟩

/-- All that firm patterns offer with some literals is found, in its length. -/
theorem offers_gives_size (hw : ∀ x ∈ w, x.isComplete)
    (hidioms : ∀ i ∈ idioms, i.IsSound ∧ i.IsFirm)
    (hrules : ∀ r ∈ rules, r.IsSound ∧ r.IsFirm) (hwell : ∀ r ∈ rules, r.isWellFormed) :
    Gives (offers idioms rules w) fun fs => (∀ g ∈ fs, Offered idioms rules w g) ∧
      ∀ f, Offered idioms rules w f → ∃ g ∈ fs, g.size = f.size := by
  refine (offers_gives hw (fun i hi => (hidioms i hi).1) (fun r hr => (hrules r hr).1)
    hwell).mono ?_
  rintro fs ⟨hall, hfromIdioms, hfromRules⟩
  refine ⟨hall, fun f hf => ?_⟩
  rcases hf with ⟨i, hi, pool, hf⟩ | ⟨r, hr, pool, hf⟩
  · obtain ⟨pool', hmem⟩ := hfromIdioms i hi
    obtain ⟨g, hg, hsize⟩ := (hidioms i hi).2.exists_offer? hf pool'
    exact ⟨g, hmem g hg, hsize⟩
  · obtain ⟨pool', hmem⟩ := hfromRules r hr
    obtain ⟨g, hg, hsize⟩ := (hrules r hr).2.exists_offer? hf pool'
    exact ⟨g, hmem g hg, hsize⟩

theorem take_reach_of_le {m n : Nat} (h : m ≤ n) (code : List Instr) :
    (reach n code).take m = reach m code := by
  rw [reach, reach, List.take_takeWhile, List.take_take, Nat.min_eq_left h]

theorem reach_cons_of_le {m n : Nat} (h : m ≤ n) {code rest : List Instr} {x : Instr}
    (hreach : reach m code = x :: rest) :
    ∃ more, reach n code = x :: more ∧ x :: rest <+: x :: more := by
  obtain ⟨t, ht⟩ := List.take_prefix m (reach n code)
  rw [take_reach_of_le h, hreach] at ht
  exact ⟨rest ++ t, ht.symm, List.prefix_append (x :: rest) t⟩

theorem exists_isWhole_of_reach {n : Nat} {code rest : List Instr} {x : Instr}
    (hreach : reach n code = x :: rest) : ∃ op, x.IsWhole op := by
  have hmem : x ∈ reach n code := hreach ▸ List.mem_cons_self
  exact Instr.exists_isWhole (Catalog.isComplete_of_mem_reach hmem)

theorem size_of_alone {x : Instr} {op : Opcode} (hx : x.IsWhole op) {scope : Option Text}
    {s : Session} (hf : Ends (alone scope op x) s (some f)) : f.size = 1 := by
  obtain ⟨o, t, hrun, -, hsize, -⟩ := alone_progress hx scope s
  exact hsize f ((ends_iff_of_run hrun).mp hf)

end Selection

namespace Catalog

variable {window wider : Int} {idioms : List Idiom} {rules : List Rule} {c d : Catalog}
  {scope : Option Text} {code : List Instr} {s : Session} {f : Fragment}

theorem reach_cons_of_select (hmake : make window idioms rules = .ok c) (hwindow : 0 ≤ window)
    (hf : Ends (c.select scope code) s (some f)) :
    ∃ x rest op, reach window.toNat code = x :: rest ∧ x.IsWhole op := by
  cases hreach : reach window.toNat code with
  | nil =>
    rw [select_eq_pure hmake hwindow scope hreach, ends_pure_iff] at hf
    cases hf
  | cons x rest =>
    obtain ⟨op, hx⟩ := exists_isWhole_of_reach hreach
    exact ⟨x, rest, op, rfl, hx⟩

section Sound

variable (hmake : make window idioms rules = .ok c)
  (hidioms : ∀ i ∈ idioms, i.IsSound ∧ i.IsFirm) (hrules : ∀ r ∈ rules, r.IsSound ∧ r.IsFirm)
  {x : Instr} {rest : List Instr} (hreach : reach window.toNat code = x :: rest)
include hmake hidioms hrules hreach

/-- What is found in the window: all that patterns offer there, each in its length. -/
theorem offers_size_of_reach : Gives (offers idioms rules (x :: rest)) fun fs =>
    (∀ g ∈ fs, Offered idioms rules (x :: rest) g) ∧
      ∀ f, Offered idioms rules (x :: rest) f → ∃ g ∈ fs, g.size = f.size :=
  offers_gives_size (fun _ hy => isComplete_of_mem_reach (hreach ▸ hy)) hidioms hrules
    (make_eq_ok_iff.mp hmake).1

variable (hwindow : 0 ≤ window) {op : Opcode} (hx : x.IsWhole op)
include hwindow hx

theorem exists_select_of_offered (hf : Offered idioms rules (x :: rest) f) (s : Session) :
    ∃ g, Ends (c.select scope code) s (some g) ∧ f.size ≤ g.size := by
  obtain ⟨gs, pool, hrun, -, hgs⟩ := offers_size_of_reach hmake hidioms hrules hreach s
  obtain ⟨g', hg', hsize⟩ := hgs f hf
  cases gs with
  | nil => cases hg'
  | cons a gs =>
    obtain ⟨g, hg⟩ := exists_argmax_cons a gs
    refine ⟨g, (ends_select_iff hmake hwindow scope hreach hx.1 s _).mpr
      (.inr ⟨a, gs, ⟨_, hrun⟩, g, hg, rfl⟩), ?_⟩
    rw [← hsize]
    exact List.le_of_mem_argmax hg' hg

theorem exists_select_of_not_isUntranslatable (htranslatable : ¬ x.IsUntranslatable)
    (s : Session) : ∃ g, Ends (c.select scope code) s (some g) ∧ 1 ≤ g.size := by
  obtain ⟨hwell, hspan, rfl⟩ := make_eq_ok_iff.mp hmake
  have hsound : IsSound ⟨window, idioms, rules, indexOf rules⟩ :=
    ⟨fun i hi => (hidioms i hi).1, hspan, fun r hr => (hrules r hr).1, hwell, rfl⟩
  obtain ⟨gs, pool, hrun, -⟩ := offers_size_of_reach hmake hidioms hrules hreach s
  have hgs : (∃ g gs, Ends (offers idioms rules (x :: rest)) s (g :: gs)) ∨
      Ends (offers idioms rules (x :: rest)) s [] ∧ ¬ x.IsUntranslatable := by
    cases gs with
    | nil => exact .inr ⟨⟨_, hrun⟩, htranslatable⟩
    | cons g gs => exact .inl ⟨g, gs, _, hrun⟩
  obtain ⟨g, t, hg⟩ := (ends_select_of_isWhole hmake hwindow scope hreach hx s).2.mpr hgs
  exact ⟨g, ⟨t, hg⟩, (hsound.of_select_eq_some hwindow hg).2.1⟩

end Sound

/-- What is found in a narrow window is found in a wider one, or something longer. -/
theorem exists_select_of_le (hmake : make window idioms rules = .ok c)
    (hwider : make wider idioms rules = .ok d) (hwindow : 1 ≤ window) (hle : window ≤ wider)
    (hidioms : ∀ i ∈ idioms, i.IsSound ∧ i.IsFirm) (hrules : ∀ r ∈ rules, r.IsSound ∧ r.IsFirm)
    (hf : Ends (c.select scope code) s (some f)) (s' : Session) :
    ∃ g, Ends (d.select scope code) s' (some g) ∧ f.size ≤ g.size := by
  have hwell := (make_eq_ok_iff.mp hmake).1
  obtain ⟨x, rest, op, hreach, hx⟩ := reach_cons_of_select hmake (by omega) hf
  obtain ⟨more, hmore, hview⟩ := reach_cons_of_le (Int.toNat_le_toNat hle) hreach
  rcases (ends_select_iff hmake (by omega) scope hreach hx.1 s (some f)).mp hf with
    ⟨t, -, halone⟩ | ⟨f', fs, hfs, f, hbest, ⟨⟩⟩
  · -- The instruction on its own has code whatever the session.
    have htranslatable := (ends_alone_iff hx scope t).2.mp ⟨f, halone⟩
    rw [size_of_alone hx halone]
    exact exists_select_of_not_isUntranslatable hwider hidioms hrules hmore (by omega) hx
      htranslatable s'
  · have hoffered := (hfs.of_gives (offers_size_of_reach hmake hidioms hrules hreach)).1 f
      (List.argmax_mem hbest)
    exact exists_select_of_offered hwider hidioms hrules hmore (by omega) hx
      (hoffered.extend hwell hview) s'

end Catalog

/-! ### Beyond the longest pattern -/

theorem Idiom.asking_take {i : Idiom} {n : Nat} (h : i.span ≤ n) (w : List Instr) :
    i.asking (w.take n) = i.asking w := by
  have hlen : i.span > (w.take n).length ↔ i.span > w.length := by
    rw [List.length_take]
    omega
  simp only [Idiom.asking, hlen, List.take_take, Nat.min_eq_left h]

theorem Rule.applies_take {r : Rule} (hwell : r.isWellFormed) {n : Nat} (h : r.size ≤ n)
    (w : List Instr) : r.Applies (w.take n) ↔ r.Applies w := by
  have hops : ∀ ops : List Opcode, ops.length ≤ n →
      (ops.map .known <+: (w.take n).map (·.op) ↔ ops.map .known <+: w.map (·.op)) := by
    intro ops hlen
    rw [List.map_take, List.prefix_take_iff, List.length_map, and_iff_left hlen]
  exact or_congr (hops r.seq h)
    (and_congr_right fun hne => hops r.alt (length_alt hwell hne ▸ h))

theorem Rule.asking_take {r : Rule} (hwell : r.isWellFormed) {n : Nat} (h : r.size ≤ n)
    (w : List Instr) : r.asking (w.take n) = r.asking w := by
  have hmatch : r.isMatch (w.take n) = r.isMatch w := by
    rw [Bool.eq_iff_iff, isMatch_iff, isMatch_iff, applies_take hwell h]
  rw [Rule.asking, Rule.asking, hmatch, List.take_take, Nat.min_eq_left h]

namespace Catalog

variable {window wider : Int} {idioms : List Idiom} {rules : List Rule} {c d : Catalog}

def longest (idioms : List Idiom) (rules : List Rule) : Nat :=
  (idioms.map (·.span) ++ rules.map Rule.size).max?.getD 0

theorem offers_take {n : Nat} (hlongest : longest idioms rules ≤ n)
    (hwell : ∀ r ∈ rules, r.isWellFormed) (w : List Instr) :
    offers idioms rules (w.take n) = offers idioms rules w := by
  have hidioms : idioms.map (Idiom.asking (w.take n)) = idioms.map (Idiom.asking w) := by
    refine List.map_congr_left fun i hi => Idiom.asking_take (le_trans ?_ hlongest) w
    exact List.le_max?_getD_of_mem (List.mem_append_left _ (List.mem_map_of_mem hi))
  have hrules : rules.map (Rule.asking (w.take n)) = rules.map (Rule.asking w) := by
    refine List.map_congr_left fun r hr => Rule.asking_take (hwell r hr) (le_trans ?_ hlongest) w
    exact List.le_max?_getD_of_mem (List.mem_append_right _ (List.mem_map_of_mem hr))
  rw [offers, offers, hidioms, hrules]

/-- With all patterns in sight, a wider window changes nothing. -/
theorem select_eq_of_longest_le (hmake : make window idioms rules = .ok c)
    (hwider : make wider idioms rules = .ok d) (hwindow : 1 ≤ window) (hle : window ≤ wider)
    (hlongest : longest idioms rules ≤ window) (scope : Option Text) (code : List Instr) :
    c.select scope code = d.select scope code := by
  have htake := take_reach_of_le (Int.toNat_le_toNat hle) code
  cases hreach : reach window.toNat code with
  | nil =>
    have hreach' : reach wider.toNat code = [] := by
      rw [hreach, List.take_eq_nil_iff] at htake
      exact htake.resolve_left (by omega)
    rw [select_eq_pure hmake (by omega) scope hreach,
      select_eq_pure hwider (by omega) scope hreach']
  | cons x rest =>
    obtain ⟨more, hmore, -⟩ := reach_cons_of_le (Int.toNat_le_toNat hle) hreach
    obtain ⟨op, hx⟩ := exists_isWhole_of_reach hreach
    rw [select_eq_offers hmake (by omega) scope hreach hx.1,
      select_eq_offers hwider (by omega) scope hmore hx.1]
    rw [hreach, hmore] at htake
    rw [← htake, offers_take (by omega) (make_eq_ok_iff.mp hmake).1]

theorem longest_standard : longest Idiom.all Assignment.rules = 5 := by decide +kernel

/-- A wider window loses nothing: where selection succeeds it succeeds with the wider window too,
whatever the session, and covers at least as much. From the length of the longest pattern on, which
is five for the catalogs, all windows select alike. -/
theorem select_widened (hmake : make window idioms rules = .ok c)
    (hwider : make wider idioms rules = .ok d) (hwindow : 1 ≤ window) (hle : window ≤ wider)
    (scope : Option Text) (code : List Instr) :
    ((∀ i ∈ idioms, i.IsSound ∧ i.IsFirm) → (∀ r ∈ rules, r.IsSound ∧ r.IsFirm) →
      ∀ s s' f, Ends (c.select scope code) s (some f) →
        ∃ g, Ends (d.select scope code) s' (some g) ∧ f.size ≤ g.size) ∧
    (longest idioms rules ≤ window → c.select scope code = d.select scope code) ∧
    longest Idiom.all Assignment.rules = 5 :=
  ⟨fun hidioms hrules _ s' _ hf =>
      exists_select_of_le hmake hwider hwindow hle hidioms hrules hf s',
    fun hlongest => select_eq_of_longest_le hmake hwider hwindow hle hlongest scope code,
    longest_standard⟩

/-- One instruction at a time in a window of one, all three at once in one of five, and the same
with the usual window. -/
theorem select_widened_selfIndexing : ∃ c d f g,
    make 1 Idiom.all Assignment.rules = .ok c ∧ make 5 Idiom.all Assignment.rules = .ok d ∧
      Ends (c.select none SelfIndexing.code) .start (some f) ∧
      Ends (d.select none SelfIndexing.code) .start (some g) ∧ f.size ≤ g.size ∧
      d.select none SelfIndexing.code = standard.select none SelfIndexing.code := by
  have hidioms : ∀ i ∈ Idiom.all, i.IsSound ∧ i.IsFirm :=
    fun i hi => ⟨Idiom.all_isSound i hi, Idiom.all_isFirm i hi⟩
  have hrules : ∀ r ∈ Assignment.rules, r.IsSound ∧ r.IsFirm :=
    fun r hr => ⟨Assignment.rules_isSound r hr, Assignment.rules_isFirm r hr⟩
  have hf : Ends (select ⟨1, Idiom.all, Assignment.rules, indexOf Assignment.rules⟩ none
      SelfIndexing.code) .start (some ⟨"fallback PUSH_VAR_BYTE",
        [[Asm.lda (.direct (.name "i")), Asm.sta (Asm.low 0), Asm.dex]], 1, false⟩) :=
    ends_iff.mpr (by decide +kernel)
  obtain ⟨g, hg, hsize⟩ := (select_widened (make_all 1) (make_all 5) (by decide) (by decide) none
    SelfIndexing.code).1 hidioms hrules .start .start _ hf
  have hsame := (select_widened (make_all 5) (make_all 6) (by decide) (by decide) none
    SelfIndexing.code).2.1 (by rw [longest_standard]; decide)
  exact ⟨_, _, _, g, make_all 1, make_all 5, hf, hg, hsize, hsame⟩

end Catalog

end Stack6502
