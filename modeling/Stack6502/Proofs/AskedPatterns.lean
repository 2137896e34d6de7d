import Mathlib.Data.List.MinMax
import Stack6502.Proofs.SelectionOffers

/-!
# Patterns asked in turn

Selection asks idioms and then rules, each with the literals that the ones before it leave, and a
pattern that goes wrong ends the search. Whatever the patterns do with the literals, the outcome is
that of asking all of them in turn and then taking the first of the longest fragments.
-/
namespace Stack6502

open Selection

/-- A later candidate takes the place of an earlier one only if it is longer. -/
theorem Candidate.fragment_keep {best : Option Candidate} {order : Nat}
    (horder : ∀ b ∈ best, b.order < order) (f : Fragment) :
    (Candidate.keep best order (some f)).map (·.fragment) =
      List.argAux (fun g h => h.size < g.size) (best.map (·.fragment)) f := by
  cases best with
  | none => rfl
  | some b =>
    have hlt : b.order < order := horder b rfl
    have hbetter : Candidate.isBetter ⟨f, order⟩ b = decide (b.fragment.size < f.size) := by
      by_cases hsize : f.size = b.fragment.size
      · simp [Candidate.isBetter, hsize, Nat.le_of_lt hlt]
      · simp [Candidate.isBetter, hsize]
    simp only [Candidate.keep, Candidate.best, hbetter, List.argAux, Option.map_some]
    by_cases h : b.fragment.size < f.size
    · simp [h]
    · simp [h]

theorem Candidate.order_keep {best : Option Candidate} {order next : Nat}
    (hbest : ∀ b ∈ best, b.order < next) (horder : order < next) (o : Option Fragment) :
    ∀ b ∈ Candidate.keep best order o, b.order < next := by
  intro b hb
  cases o with
  | none => exact hbest b hb
  | some f =>
    rcases Candidate.mem_best hb with rfl | hb
    · exact horder
    · exact hbest b hb

namespace Selection

/-- The fragments that patterns yield, asked in turn. -/
def gather : List (Selecting (Option Fragment)) → Selecting (List Fragment)
  | [] => return []
  | m :: ms => do
    let o ← m
    let fs ← gather ms
    return o.toList ++ fs

/-- All that idioms and then rules yield on the window, in the order of the catalogs. -/
def offers (idioms : List Idiom) (rules : List Rule) (w : List Instr) :
    Selecting (List Fragment) :=
  gather (idioms.map (Idiom.asking w) ++ rules.map (Rule.asking w))

/-! ### The search as one loop -/

theorem consult_append (ms ns : List (Selecting (Option Fragment) × Nat))
    (best : Option Candidate) : consult (ms ++ ns) best = consult ms best >>= consult ns := by
  induction ms generalizing best with
  | nil => simp [consult]
  | cons m ms ih => simp only [List.cons_append, consult, ih, bind_assoc]

/-- Patterns that have nothing to say may be left out. -/
theorem consult_filter {α : Type} {p : α → Bool} {f : α → Selecting (Option Fragment) × Nat}
    {l : List α} (h : ∀ a ∈ l, ¬ p a → (f a).1 = pure none) (best : Option Candidate) :
    consult ((l.filter p).map f) best = consult (l.map f) best := by
  induction l generalizing best with
  | nil => rfl
  | cons a l ih =>
    obtain ⟨ha, hl⟩ := List.forall_mem_cons.mp h
    by_cases hp : p a
    · simp only [List.filter_cons_of_pos hp, List.map_cons, consult, ih hl]
    · rw [List.filter_cons_of_neg hp, ih hl, List.map_cons, consult, ha hp, pure_bind]
      rfl

/-- With places in order, the best candidate is the first of the longest fragments. -/
theorem map_consult {ms : List (Selecting (Option Fragment) × Nat)}
    (hms : ms.Pairwise (·.2 < ·.2)) {best : Option Candidate}
    (hbest : ∀ b ∈ best, ∀ m ∈ ms, b.order < m.2) :
    Option.map (·.fragment) <$> consult ms best = (fun fs => fs.foldl
      (List.argAux fun g h => h.size < g.size) (best.map (·.fragment))) <$>
        gather (ms.map (·.1)) := by
  induction ms generalizing best with
  | nil => simp [consult, gather]
  | cons m ms ih =>
    obtain ⟨hfirst, hms⟩ := List.pairwise_cons.mp hms
    simp only [consult, gather, List.map_cons, map_bind, map_pure]
    congr 1
    funext o
    -- The best so far stands before all patterns to come, so that a tie keeps it.
    have hnext : ∀ b ∈ Candidate.keep best m.2 o, ∀ m' ∈ ms, b.order < m'.2 :=
      fun b hb m' hm' => Candidate.order_keep
        (fun b hb => hbest b hb m' (List.mem_cons_of_mem _ hm')) (hfirst m' hm') o b hb
    rw [ih hms hnext, map_eq_pure_bind]
    congr 1
    funext fs
    cases o with
    | none => rfl
    | some f =>
      rw [Candidate.fragment_keep fun b hb => hbest b hb m List.mem_cons_self]
      rfl

/-! ### Patterns that answer -/

open Selecting

/-- Patterns that answer one by one answer in turn. -/
theorem gather_gives {α : Type} {f : α → Selecting (Option Fragment)}
    {P : α → Option Fragment → Prop} {l : List α} (h : ∀ a ∈ l, Gives (f a) (P a)) :
    Gives (gather (l.map f)) fun fs =>
      (∀ g ∈ fs, ∃ a ∈ l, P a (some g)) ∧ ∀ a ∈ l, ∃ o, P a o ∧ ∀ g ∈ o, g ∈ fs := by
  induction l with
  | nil => exact .pure (by simp)
  | cons a l ih =>
    obtain ⟨ha, hl⟩ := List.forall_mem_cons.mp h
    refine ha.bind fun o ho => (ih hl).bind fun fs hfs => .pure ⟨fun g hg => ?_, ?_⟩
    · rcases List.mem_append.mp hg with hg | hg
      · obtain rfl := Option.mem_toList.mp hg
        exact ⟨a, List.mem_cons_self, ho⟩
      · obtain ⟨a', ha', hg⟩ := hfs.1 g hg
        exact ⟨a', List.mem_cons_of_mem a ha', hg⟩
    · refine List.forall_mem_cons.mpr ⟨⟨o, ho, fun g hg => ?_⟩, fun a' ha' => ?_⟩
      · exact List.mem_append_left fs (Option.mem_toList.mpr hg)
      · obtain ⟨o', ho', hmem⟩ := hfs.2 a' ha'
        exact ⟨o', ho', fun g hg => List.mem_append_right _ (hmem g hg)⟩

theorem gather_append (ms ns : List (Selecting (Option Fragment))) :
    gather (ms ++ ns) = gather ms >>= fun fs => gather ns >>= fun gs => pure (fs ++ gs) := by
  induction ms with
  | nil => simp [gather]
  | cons m ms ih =>
    simp only [List.cons_append, gather, ih, bind_assoc, pure_bind, List.append_assoc]

/-- With some literals, one of the patterns offers the fragment on the window. -/
def Offered (idioms : List Idiom) (rules : List Rule) (w : List Instr) (g : Fragment) : Prop :=
  (∃ i ∈ idioms, ∃ pool, i.offer? w pool = some g) ∨ ∃ r ∈ rules, ∃ pool, r.offer? w pool = some g

/-- Asked in turn, sound patterns offer what each of them offers with some literals. -/
theorem offers_gives {w : List Instr} (hw : ∀ x ∈ w, x.isComplete) {idioms : List Idiom}
    {rules : List Rule} (hidioms : ∀ i ∈ idioms, i.IsSound)
    (hrules : ∀ r ∈ rules, r.IsSound) (hwell : ∀ r ∈ rules, r.isWellFormed) :
    Gives (offers idioms rules w) fun fs => (∀ g ∈ fs, Offered idioms rules w g) ∧
      (∀ i ∈ idioms, ∃ pool, ∀ g ∈ i.offer? w pool, g ∈ fs) ∧
      ∀ r ∈ rules, ∃ pool, ∀ g ∈ r.offer? w pool, g ∈ fs := by
  rw [offers, gather_append]
  refine (gather_gives fun i hi => (hidioms i hi).asking_gives hw).bind fun fs hfs =>
    (gather_gives fun r hr => (hrules r hr).asking_gives hw (hwell r hr)).bind fun gs hgs =>
      .pure ⟨fun g hg => ?_, fun i hi => ?_, fun r hr => ?_⟩
  · rcases List.mem_append.mp hg with hg | hg
    · obtain ⟨i, hi, pool, hoffer⟩ := hfs.1 g hg
      exact .inl ⟨i, hi, pool, hoffer.symm⟩
    · obtain ⟨r, hr, pool, hoffer⟩ := hgs.1 g hg
      exact .inr ⟨r, hr, pool, hoffer.symm⟩
  · obtain ⟨_, ⟨pool, rfl⟩, hmem⟩ := hfs.2 i hi
    exact ⟨pool, fun g hg => List.mem_append_left _ (hmem g hg)⟩
  · obtain ⟨_, ⟨pool, rfl⟩, hmem⟩ := hgs.2 r hr
    exact ⟨pool, fun g hg => List.mem_append_right _ (hmem g hg)⟩

end Selection

def Selecting.Ends {α : Type} (m : Selecting α) (s : Session) (a : α) : Prop :=
  ∃ t, m.run.run s = (.ok a, t)

namespace Selecting

variable {α β : Type} {m : Selecting α} {f : α → Selecting β} {s : Session}

theorem ends_iff_of_run {t : Session} {a b : α} (h : m.run.run s = (.ok a, t)) :
    Ends m s b ↔ a = b := by
  constructor
  · rintro ⟨u, hu⟩
    cases h.symm.trans hu
    rfl
  · rintro rfl
    exact ⟨t, h⟩

theorem ends_iff {a : α} : Ends m s a ↔ (m.run.run s).1 = .ok a :=
  ⟨fun ⟨_, h⟩ => h ▸ rfl, fun h => ⟨(m.run.run s).2, Prod.ext h rfl⟩⟩

theorem ends_pure_iff {a b : α} : Ends (pure a) s b ↔ a = b := ends_iff_of_run rfl

theorem Ends.of_gives {P : α → Prop} {a : α} (ha : Ends m s a) (h : Gives m P) : P a := by
  obtain ⟨b, pool, hrun, hb⟩ := h s
  rwa [(ends_iff_of_run hrun).mp ha] at hb

theorem ends_bind_iff {b : β} :
    Ends (m >>= f) s b ↔ ∃ a t, m.run.run s = (.ok a, t) ∧ Ends (f a) t b := by
  constructor
  · rintro ⟨u, h⟩
    obtain ⟨a, t, ha, hb⟩ := of_run_bind_eq_ok h
    exact ⟨a, t, ha, u, hb⟩
  · rintro ⟨a, t, ha, u, hb⟩
    exact ⟨u, (run_bind_of_ok ha).trans hb⟩

end Selecting

/-! ### The catalog asked in turn -/

theorem Rule.Applies.startsAt {r : Rule} (hwell : r.isWellFormed) {x : Instr} {rest : List Instr}
    (h : r.Applies (x :: rest)) {op : Opcode} (hx : x.op = .known op) : r.startsAt op := by
  have hhead : ∀ ops : List Opcode, ops ≠ [] → ops.map .known <+: (x :: rest).map (·.op) →
      ops.head? = some op := by
    intro ops hne hops
    obtain ⟨first, ops, rfl⟩ := List.exists_cons_of_ne_nil hne
    rw [List.map_cons, List.map_cons, List.cons_prefix_cons, hx, Coded.known.injEq] at hops
    rw [List.head?_cons, hops.1]
  rw [Rule.startsAt, Bool.or_eq_true, beq_iff_eq, beq_iff_eq]
  rcases h with hseq | ⟨hne, halt⟩
  · exact .inl (hhead r.seq (List.length_pos_iff.mp (Rule.size_pos hwell)) hseq)
  · exact .inr (hhead r.alt hne halt)

namespace Catalog

theorem map_placed (rules : List Rule) : (placed rules).map (·.2) = rules := by
  rw [placed, List.map_map]
  exact List.zipIdx_map_fst 0 rules

/-- The places of the patterns increase, and those of rules follow those of idioms. -/
theorem pairwise_places {α : Type} (f : Idiom → α) (g : Rule → α) (idioms : List Idiom)
    {rules : List Rule} {chosen : List PlacedRule} (h : chosen.Sublist (placed rules)) :
    ((idioms.zipIdx.map fun i => (f i.1, i.2)) ++
      chosen.map fun r => (g r.2, idioms.length + r.1)).Pairwise (·.2 < ·.2) := by
  rw [List.pairwise_append, List.pairwise_map, List.pairwise_map]
  refine ⟨pairwise_zipIdx idioms, ?_, ?_⟩
  · have hplaced : (placed rules).Pairwise (·.1 < ·.1) :=
      List.pairwise_map.mpr (pairwise_zipIdx rules)
    exact (hplaced.sublist h).imp fun h => Nat.add_lt_add_left h _
  · intro a ha b hb
    obtain ⟨i, hi, rfl⟩ := List.mem_map.mp ha
    obtain ⟨r, -, rfl⟩ := List.mem_map.mp hb
    have hlt : i.2 < idioms.length + 0 := List.snd_lt_of_mem_zipIdx hi
    change i.2 < idioms.length + r.1
    omega

def askings (idioms : List Idiom) (rules : List Rule) (w : List Instr) :
    List (Selecting (Option Fragment) × Nat) :=
  (idioms.zipIdx.map fun i => (i.1.asking w, i.2)) ++
    (placed rules).map fun r => (r.2.asking w, idioms.length + r.1)

theorem map_askings (idioms : List Idiom) (rules : List Rule) (w : List Instr) :
    (askings idioms rules w).map (·.1) =
      idioms.map (Idiom.asking w) ++ rules.map (Rule.asking w) := by
  conv_rhs => rw [← List.zipIdx_map_fst 0 idioms, ← map_placed rules]
  simp only [askings, List.map_append, List.map_map, Function.comp_def]

/-- The index leaves out only rules that have nothing to say. -/
theorem search_eq_consult {c : Catalog} (hindex : c.index = indexOf c.rules)
    (hwell : ∀ r ∈ c.rules, r.isWellFormed) {x : Instr} {op : Opcode} (hx : x.op = .known op)
    (rest : List Instr) :
    tryIdioms (x :: rest) c.idioms.zipIdx none >>=
      tryRules (x :: rest) c.idioms.length (c.rulesAt op) =
        consult (askings c.idioms c.rules (x :: rest)) none := by
  rw [askings, consult_append, tryIdioms_eq_consult]
  congr 1
  funext best
  rw [tryRules_eq_consult, rulesAt_eq hindex]
  apply consult_filter
  intro r hr hstarts
  have hnot : ¬ r.2.isMatch (x :: rest) := fun hmatch => hstarts
    (((r.2.isMatch_iff _).mp hmatch).startsAt (hwell _ (mem_of_mem_placed hr)) hx)
  rw [Rule.asking, if_neg hnot]

/-- The search finds the first of the longest fragments. -/
theorem map_consult_askings (idioms : List Idiom) (rules : List Rule) (w : List Instr) :
    Option.map (·.fragment) <$> consult (askings idioms rules w) none =
      List.argmax Fragment.size <$> offers idioms rules w := by
  rw [offers, ← map_askings]
  exact map_consult (pairwise_places _ _ _ (List.Sublist.refl _)) (by simp)

variable {window : Int} {idioms : List Idiom} {rules : List Rule} {c : Catalog}

theorem select_eq_pure (hmake : make window idioms rules = .ok c) (hwindow : 0 ≤ window)
    (scope : Option Text) {code : List Instr} (hreach : reach window.toNat code = []) :
    c.select scope code = pure none := by
  obtain ⟨-, -, rfl⟩ := make_eq_ok_iff.mp hmake
  rw [select, if_neg (Int.not_lt.mpr hwindow)]
  simp only [hreach]

/-- Selection asks all patterns and takes the first of the longest fragments, or with none the code
of the first instruction on its own. -/
theorem select_eq_offers (hmake : make window idioms rules = .ok c) (hwindow : 0 ≤ window)
    (scope : Option Text) {code rest : List Instr} {x : Instr}
    (hreach : reach window.toNat code = x :: rest) {op : Opcode} (hx : x.op = .known op) :
    c.select scope code = offers idioms rules (x :: rest) >>= fun fs =>
      (fs.argmax Fragment.size).elim (alone scope op x) (pure ∘ some) := by
  obtain ⟨hwell, -, rfl⟩ := make_eq_ok_iff.mp hmake
  rw [select, if_neg (Int.not_lt.mpr hwindow)]
  simp only [hreach, hx]
  calc _ = consult (askings idioms rules (x :: rest)) none >>= fun best =>
        (best.map (·.fragment)).elim (alone scope op x) (pure ∘ some) := by
        rw [← search_eq_consult (c := ⟨window, idioms, rules, indexOf rules⟩) rfl hwell hx,
          bind_assoc]
        congr 1
        funext first
        congr 1
        funext best
        cases best <;> rfl
    _ = (Option.map (·.fragment) <$> consult (askings idioms rules (x :: rest)) none) >>=
        fun o => o.elim (alone scope op x) (pure ∘ some) := by rw [bind_map_left]
    _ = _ := by rw [map_consult_askings, bind_map_left]

open Selecting

theorem exists_argmax_cons (f : Fragment) (fs : List Fragment) :
    ∃ g, (f :: fs).argmax Fragment.size = some g :=
  Option.ne_none_iff_exists'.mp (mt List.argmax_eq_none.mp (List.cons_ne_nil f fs))

theorem ends_select_iff (hmake : make window idioms rules = .ok c) (hwindow : 0 ≤ window)
    (scope : Option Text) {code rest : List Instr} {x : Instr}
    (hreach : reach window.toNat code = x :: rest) {op : Opcode} (hx : x.op = .known op)
    (s : Session) (o : Option Fragment) :
    Ends (c.select scope code) s o ↔
      (∃ t, (offers idioms rules (x :: rest)).run.run s = (.ok [], t) ∧
        Ends (alone scope op x) t o) ∨
      ∃ f fs, Ends (offers idioms rules (x :: rest)) s (f :: fs) ∧
        ∃ g ∈ (f :: fs).argmax Fragment.size, some g = o := by
  rw [select_eq_offers hmake hwindow scope hreach hx, ends_bind_iff]
  constructor
  · rintro ⟨fs, t, hfs, hends⟩
    cases fs with
    | nil => exact .inl ⟨t, hfs, hends⟩
    | cons f fs =>
      obtain ⟨g, hg⟩ := exists_argmax_cons f fs
      rw [hg] at hends
      exact .inr ⟨f, fs, ⟨t, hfs⟩, g, hg, ends_pure_iff.mp hends⟩
  · rintro (⟨t, hfs, hends⟩ | ⟨f, fs, ⟨t, hfs⟩, g, hg, rfl⟩)
    · exact ⟨[], t, hfs, hends⟩
    · refine ⟨f :: fs, t, hfs, ?_⟩
      rw [Option.mem_def.mp hg]
      exact ends_pure_iff.mpr rfl

end Catalog

end Stack6502
