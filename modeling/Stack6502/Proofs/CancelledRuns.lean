import Mathlib.Data.List.Flatten
import Mathlib.Data.List.SplitBy
import Stack6502.Proofs.AssembledText

/-!
# Runs of index steps

Where each of some lines cancels the next, lines are cancelled in pairs from the first one on. So
nothing remains of such a run, or its last line alone.
-/
namespace Stack6502

/-- What remains of a run of lines each of which cancels the next. -/
def remainder {α : Type} : List α → List α
  | _ :: _ :: rest => remainder rest
  | run => run

/-- The lines cut into the longest runs in which each line cancels the next. -/
def stepRuns {α : Type} (ls : List (α × Text)) : List (List (α × Text)) :=
  ls.splitBy fun first second => cancels first.2 second.2

/-! ### What remains of a run -/

section Remainder

variable {α : Type}

theorem remainder_sublist (run : List α) : (remainder run).Sublist run := by
  fun_induction remainder run with
  | case1 first second rest ih => exact (ih.cons second).cons first
  | case2 => exact .refl _

theorem remainder_of_even {run : List α} (h : run.length % 2 = 0) : remainder run = [] := by
  fun_induction remainder run with
  | case1 first second rest ih =>
    simp only [List.length_cons] at h
    exact ih (by omega)
  | case2 run hshort =>
    match run with
    | [] => rfl
    | [l] => simp at h
    | first :: second :: rest => exact absurd rfl (hshort first second rest)

theorem dropLast_append_remainder {run : List α} (h : run.length % 2 = 1) :
    run.dropLast ++ remainder run = run := by
  fun_induction remainder run with
  | case1 first second rest ih =>
    simp only [List.length_cons] at h
    have hodd : rest.length % 2 = 1 := by omega
    have hne : rest ≠ [] := by
      rintro rfl
      simp at hodd
    rw [List.dropLast_cons_of_ne_nil (by simp), List.dropLast_cons_of_ne_nil hne, List.cons_append,
      List.cons_append, ih hodd]
  | case2 run hshort =>
    match run with
    | [] => simp at h
    | [l] => rfl
    | first :: second :: rest => exact absurd rfl (hshort first second rest)

/-- Lines of a run with a property all remain exactly if there are none or the last line of an odd
number is the only one. -/
theorem filter_remainder_eq_iff {p : α → Bool} {run : List α} :
    (remainder run).filter p = run.filter p ↔
      ((∃ l ∈ run, p l) → run.length % 2 = 1 ∧ ∀ l ∈ run.dropLast, ¬ p l) := by
  rcases Nat.mod_two_eq_zero_or_one run.length with heven | hodd
  · rw [remainder_of_even heven, List.filter_nil, eq_comm, List.filter_eq_nil_iff]
    simp [heven]
  · have hrun := dropLast_append_remainder hodd
    have hfilter : run.filter p = run.dropLast.filter p ++ (remainder run).filter p := by
      rw [← List.filter_append, hrun]
    rw [hfilter, List.self_eq_append_left, List.filter_eq_nil_iff]
    constructor
    · exact fun hnone _ => ⟨hodd, hnone⟩
    · intro hlast l hl hp
      exact (hlast ⟨l, (List.dropLast_sublist run).subset hl, hp⟩).2 l hl hp

end Remainder

/-! ### Cancelling run by run -/

section Runs

variable {α : Type}

/-- A run that no line cancels at its end is cancelled by itself. -/
theorem cancelSourced_append {run rest : List (α × Text)}
    (hrun : run.IsChain fun first second => cancels first.2 second.2)
    (hseam : ∀ l ∈ run.getLast?, ∀ r ∈ rest.head?, ¬ cancels l.2 r.2) :
    cancelSourced (run ++ rest) = remainder run ++ cancelSourced rest := by
  fun_induction remainder run with
  | case1 first second run ih =>
    obtain ⟨hcancels, htail⟩ := List.isChain_cons_cons.mp hrun
    have hseam' : ∀ l ∈ run.getLast?, ∀ r ∈ rest.head?, ¬ cancels l.2 r.2 := by
      cases run with
      | nil => simp
      | cons third run => simpa [List.getLast?_cons_cons] using hseam
    rw [List.cons_append, List.cons_append, cancelSourced, if_pos hcancels,
      ih htail.tail hseam']
  | case2 run hshort =>
    match run, rest with
    | [], _ => rfl
    | [l], [] => rfl
    | [l], r :: rest =>
      have hkept : ¬ cancels l.2 r.2 := hseam l rfl r rfl
      rw [List.singleton_append, cancelSourced, if_neg hkept]
      rfl
    | first :: second :: rest, _ => exact absurd rfl (hshort first second rest)

theorem cancelSourced_flatten {runs : List (List (α × Text))} (hne : [] ∉ runs)
    (hruns : ∀ run ∈ runs, run.IsChain fun first second => cancels first.2 second.2)
    (hseams : runs.IsChain fun run next => ∃ hrun hnext,
      cancels (run.getLast hrun).2 (next.head hnext).2 = false) :
    cancelSourced runs.flatten = runs.flatMap remainder := by
  induction runs with
  | nil => rfl
  | cons run runs ih =>
    obtain ⟨-, hne'⟩ := not_or.mp (mt List.mem_cons.mpr hne)
    obtain ⟨hrun, hruns'⟩ := List.forall_mem_cons.mp hruns
    have hseam : ∀ l ∈ run.getLast?, ∀ r ∈ runs.flatten.head?, ¬ cancels l.2 r.2 := by
      cases runs with
      | nil => simp
      | cons next runs =>
        obtain ⟨⟨hlast, hhead, hkept⟩, -⟩ := List.isChain_cons_cons.mp hseams
        rw [List.flatten_cons, List.head?_append_of_ne_nil _ hhead,
          List.getLast?_eq_some_getLast hlast, List.head?_eq_some_head hhead]
        simp [hkept]
    rw [List.flatten_cons, cancelSourced_append hrun hseam, ih hne' hruns' hseams.tail,
      List.flatMap_cons]

theorem cancelSourced_eq_flatMap (ls : List (α × Text)) :
    cancelSourced ls = (stepRuns ls).flatMap remainder := by
  obtain ⟨hflatten, hne, hruns, hseams⟩ := List.splitBy_eq_iff.mp (rfl : _ = stepRuns ls)
  conv_lhs => rw [hflatten]
  exact cancelSourced_flatten hne hruns hseams

theorem cancelSourced_sublist (ls : List (α × Text)) : (cancelSourced ls).Sublist ls := by
  fun_induction cancelSourced ls with
  | case1 first second rest hcancels ih => exact (ih.cons second).cons first
  | case2 first second rest hcancels ih => exact ih.cons_cons first
  | case3 => exact .refl _

/-- Parts of lists make up the same list only if each is the whole. -/
theorem flatMap_eq_flatMap_iff {β γ : Type} {l : List β} {f g : β → List γ}
    (h : ∀ a ∈ l, (f a).Sublist (g a)) : l.flatMap f = l.flatMap g ↔ ∀ a ∈ l, f a = g a := by
  induction l with
  | nil => simp
  | cons a l ih =>
    obtain ⟨ha, hl⟩ := List.forall_mem_cons.mp h
    rw [List.flatMap_cons, List.flatMap_cons, List.forall_mem_cons, ← ih hl]
    constructor
    · intro heq
      have hsub : (l.flatMap f).Sublist (l.flatMap g) :=
        .flatMap_right l hl
      have hlen := congrArg List.length heq
      simp only [List.length_append] at hlen
      have hle := ha.length_le
      have hle' := hsub.length_le
      exact ⟨ha.eq_of_length (by omega), hsub.eq_of_length (by omega)⟩
    · rintro ⟨ha, hl⟩
      rw [ha, hl]

/-- Lines with a property all remain exactly if each is alone with it in a run of an odd number of
lines, as the last one. -/
theorem filter_cancelSourced_eq_iff {p : α × Text → Bool} {ls : List (α × Text)} :
    (cancelSourced ls).filter p = ls.filter p ↔ ∀ run ∈ stepRuns ls,
      (∃ l ∈ run, p l) → run.length % 2 = 1 ∧ ∀ l ∈ run.dropLast, ¬ p l := by
  have hflatten : (stepRuns ls).flatten = ls := List.flatten_splitBy _ ls
  have hls : ls.filter p = (stepRuns ls).flatMap (List.filter p) := by
    conv_lhs => rw [← hflatten, List.filter_flatten]
    rfl
  rw [hls, cancelSourced_eq_flatMap, List.filter_flatMap, flatMap_eq_flatMap_iff]
  · simp only [filter_remainder_eq_iff]
  · exact fun run _ => (remainder_sublist run).filter p

end Runs

end Stack6502
