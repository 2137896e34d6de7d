import Stack6502.Proofs.AssembledText
import Stack6502.Proofs.Processor

/-!
# What cancelled steps leave behind

A step of an index register and the step back change nothing but the flags N and Z. So lines do the
same without such pairs unless one of them sees these flags: an instruction that reads them, or the
branch at the end. `lostFlags` follows the flags that cancelled steps would have left up to the next
line that stays and sets N and Z anew.
-/
namespace Stack6502

namespace Cpu

def flags (c : Cpu) : Bool × Bool := (c.negative, c.zero)

def withFlags (c : Cpu) (f : Bool × Bool) : Cpu := { c with negative := f.1, zero := f.2 }

def restore (c : Cpu) (lost : Option (Bool × Bool)) : Cpu := lost.elim c c.withFlags

theorem withFlags_flags (c : Cpu) : c.withFlags c.flags = c := rfl

end Cpu

inductive FlagUse
  | keeps | sets | reads
  deriving DecidableEq, Repr

/-- What an instruction does that does not leave its line. Unless it reads N and Z, it does the same
whatever they are. -/
structure Effect where
  run : Cpu → Cpu
  use : FlagUse
  of_keeps : use = .keeps → ∀ c f, run (c.withFlags f) = (run c).withFlags f
  of_sets : use = .sets → ∀ c f, run (c.withFlags f) = run c

namespace IndexStep

def run : IndexStep → Cpu → Cpu
  | .inx, c => c.setX (c.x + 1)
  | .dex, c => c.setX (c.x - 1)
  | .iny, c => c.setY (c.y + 1)
  | .dey, c => c.setY (c.y - 1)

def effect (s : IndexStep) : Effect where
  run := s.run
  use := .sets
  of_keeps := nofun
  of_sets _ c f := by cases s <;> rfl

def flags (s : IndexStep) (c : Cpu) : Bool × Bool :=
  match s with
  | .inx | .dex => (c.x.msb, c.x == 0)
  | .iny | .dey => (c.y.msb, c.y == 0)

def refresh (s : IndexStep) (c : Cpu) : Cpu := c.withFlags (s.flags c)

theorem refresh_restore (s : IndexStep) (c : Cpu) (lost : Option (Bool × Bool)) :
    s.refresh (c.restore lost) = c.restore (some (s.flags c)) := by
  cases lost with
  | none => rfl
  | some f => cases s <;> rfl

/-- A step and the step back refresh N and Z and do nothing else. -/
theorem run_opposite (s : IndexStep) (c : Cpu) :
    s.opposite.run (s.run c) = s.opposite.refresh c := by
  have hup (v : Byte) : v + 1 - 1 = v := BitVec.add_sub_cancel v 1
  have hdown (v : Byte) : v - 1 + 1 = v := BitVec.sub_add_cancel v 1
  cases s <;> simp only [opposite, run, refresh, flags, Cpu.setX, Cpu.setY, hup, hdown] <;> rfl

theorem length_of_ofMnemonic? {t : Text} {s : IndexStep} (h : ofMnemonic? t = some s) :
    t.length = 3 := by
  unfold ofMnemonic? at h
  split_ifs at h
  all_goals
    subst t
    decide

end IndexStep

inductive FlagBranch
  | beq | bne | bmi | bpl
  deriving DecidableEq, Repr

namespace FlagBranch

def ofMnemonic? (t : Text) : Option FlagBranch :=
  if t = "beq" then some .beq
  else if t = "bne" then some .bne
  else if t = "bmi" then some .bmi
  else if t = "bpl" then some .bpl
  else none

/-- The branch on an indented line: its name, a blank and more. -/
def ofLine? (line : Text) : Option FlagBranch :=
  match line with
  | [] => none
  | b :: _ =>
    let body := (line.cut (Text.byte ';')).1.trim
    let gap := (body.drop 3).head?
    if (b == Text.tab || b == Text.space) && (gap == some Text.space || gap == some Text.tab) then
      ofMnemonic? (body.take 3)
    else none

def taken (c : Cpu) : FlagBranch → Bool
  | .beq => c.zero
  | .bne => !c.zero
  | .bmi => c.negative
  | .bpl => !c.negative

theorem taken_congr {c d : Cpu} (b : FlagBranch) (h : c.flags = d.flags) :
    b.taken c = b.taken d := by
  obtain ⟨hn, hz⟩ := Prod.mk.inj h
  cases b <;> simp only [taken, hn, hz]

/-- The line of a branch is no index step, since more follows its name. -/
theorem indexStep_of_ofLine? {line : Text} {b : FlagBranch} (h : ofLine? line = some b) :
    IndexStep.ofLine? line = none := by
  cases line with
  | nil => rfl
  | cons first line =>
    rw [Option.eq_none_iff_forall_ne_some]
    intro s hs
    simp only [IndexStep.ofLine?] at hs
    split at hs
    · have hlength := IndexStep.length_of_ofMnemonic? hs
      rw [ofLine?, List.drop_of_length_le hlength.le] at h
      simp at h
    · cases hs

end FlagBranch

/-! ### Lines that are cancelled and lines that stay -/

/-- Lines with whether they are cancelled. -/
def cancelMarks : List Text → List (Text × Bool)
  | first :: second :: rest =>
    if cancels first second then (first, true) :: (second, true) :: cancelMarks rest
    else (first, false) :: cancelMarks (second :: rest)
  | ls => ls.map (·, false)

def unmarked (ms : List (Text × Bool)) : List Text := (ms.filter (!·.2)).map (·.1)

theorem unmarked_append (ms ns : List (Text × Bool)) :
    unmarked (ms ++ ns) = unmarked ms ++ unmarked ns := by
  simp [unmarked]

theorem map_cancelMarks (ls : List Text) : (cancelMarks ls).map (·.1) = ls := by
  fun_induction cancelMarks ls with
  | case1 first second rest hcancels ih => simp [ih]
  | case2 first second rest hcancels ih => simp [ih]
  | case3 ls => simp [Function.comp_def]

theorem unmarked_cancelMarks (ls : List Text) : unmarked (cancelMarks ls) = cancelLines ls := by
  fun_induction cancelMarks ls with
  | case1 first second rest hcancels ih =>
    rw [cancelLines, if_pos hcancels, ← ih]
    rfl
  | case2 first second rest hcancels ih =>
    rw [cancelLines, if_neg hcancels, ← ih]
    rfl
  | case3 ls hls =>
    cases ls with
    | nil => rfl
    | cons first ls =>
      cases ls with
      | nil => rfl
      | cons second rest => exact absurd rfl (hls first second rest)

theorem cancelLines_sublist (ls : List Text) : (cancelLines ls).Sublist ls := by
  have hsub := (List.filter_sublist (p := (!·.2)) (l := cancelMarks ls)).map (·.1)
  rw [map_cancelMarks] at hsub
  rwa [← unmarked_cancelMarks]

theorem exists_step_of_cancels {first second : Text} (h : cancels first second) :
    ∃ s, IndexStep.ofLine? first = some s ∧ IndexStep.ofLine? second = some s.opposite := by
  unfold cancels at h
  split at h
  · rename_i a b ha hb
    obtain rfl : a.opposite = b := beq_iff_eq.mp h
    exact ⟨a, ha, hb⟩
  · cases h

def StepsMarked (ms : List (Text × Bool)) : Prop :=
  ∀ l, (l, true) ∈ ms → ∃ s, IndexStep.ofLine? l = some s

theorem StepsMarked.mono {ms ns : List (Text × Bool)} (h : StepsMarked ns) (hsub : ms ⊆ ns) :
    StepsMarked ms := fun l hl => h l (hsub hl)

theorem stepsMarked_cancelMarks (ls : List Text) : StepsMarked (cancelMarks ls) := by
  intro l hl
  fun_induction cancelMarks ls with
  | case1 first second rest hcancels ih =>
    obtain ⟨s, hfirst, hsecond⟩ := exists_step_of_cancels hcancels
    rw [List.mem_cons, List.mem_cons] at hl
    rcases hl with heq | heq | hl
    · cases heq
      exact ⟨s, hfirst⟩
    · cases heq
      exact ⟨s.opposite, hsecond⟩
    · exact ih hl
  | case2 first second rest hcancels ih =>
    rcases List.mem_cons.mp hl with heq | hl
    · cases heq
    · exact ih hl
  | case3 ls => simp at hl

/-! ### Running lines -/

section Run

variable (other : Text → Effect)

/-- What a line does; `other` says it of lines that are no index steps. -/
def lineEffect (l : Text) : Effect :=
  match IndexStep.ofLine? l with
  | some s => s.effect
  | none => other l

theorem lineEffect_of_step {l : Text} {s : IndexStep} (h : IndexStep.ofLine? l = some s) :
    lineEffect other l = s.effect := by
  rw [lineEffect, h]

def runLines (ls : List Text) (c : Cpu) : Cpu := ls.foldl (fun c l => (lineEffect other l).run c) c

theorem runLines_cons (l : Text) (ls : List Text) (c : Cpu) :
    runLines other (l :: ls) c = runLines other ls ((lineEffect other l).run c) := rfl

theorem runLines_append (ls ms : List Text) (c : Cpu) :
    runLines other (ls ++ ms) c = runLines other ms (runLines other ls c) :=
  List.foldl_append ..

/-- Lines that leave N and Z alone. -/
theorem flags_runLines {ls : List Text} (h : ∀ l ∈ ls, (lineEffect other l).use = .keeps)
    (c : Cpu) : (runLines other ls c).flags = c.flags := by
  induction ls generalizing c with
  | nil => rfl
  | cons l ls ih =>
    obtain ⟨hl, hls⟩ := List.forall_mem_cons.mp h
    have hkeeps := (lineEffect other l).of_keeps hl c c.flags
    rw [Cpu.withFlags_flags] at hkeeps
    rw [runLines_cons, ih hls, hkeeps]
    rfl

def SetsFlags (l : Text) : Prop := (lineEffect other l).use = .sets

instance (l : Text) : Decidable (SetsFlags other l) := inferInstanceAs (Decidable (_ = _))

theorem setsFlags_of_step {l : Text} {s : IndexStep} (h : IndexStep.ofLine? l = some s) :
    SetsFlags other l := by
  rw [SetsFlags, lineEffect_of_step other h]
  rfl

/-- The last line that sets N and Z, if there is one, stays. -/
def LastSetterStays (ms : List (Text × Bool)) : Prop :=
  ∀ m ∈ (ms.filter fun m => SetsFlags other m.1).getLast?, m.2 = false

instance (ms : List (Text × Bool)) : Decidable (LastSetterStays other ms) :=
  inferInstanceAs (Decidable (∀ m ∈ List.getLast? _, _))

/-- The last line that sets N and Z is cancelled. It takes the step `s` after the lines `front`. -/
def LastSetterCancelled (ms front : List (Text × Bool)) (s : IndexStep) : Prop :=
  ∃ l back, ms = front ++ (l, true) :: back ∧ (∀ m ∈ back, ¬ SetsFlags other m.1) ∧
    IndexStep.ofLine? l = some s

/-- Lines that read N and Z stand where the last line that sets them stays. -/
def ReadsSettled (ms : List (Text × Bool)) : Prop :=
  ∀ m ∈ ms.zipIdx, (lineEffect other m.1.1).use = .reads → LastSetterStays other (ms.take m.2)

instance (ms : List (Text × Bool)) : Decidable (ReadsSettled other ms) :=
  inferInstanceAs (Decidable (∀ m ∈ List.zipIdx _, _))

theorem lastSetterStays_iff {front back : List (Text × Bool)} {m : Text × Bool}
    (hm : SetsFlags other m.1) (hback : ∀ n ∈ back, ¬ SetsFlags other n.1) :
    LastSetterStays other (front ++ m :: back) ↔ m.2 = false := by
  have hlast : (m :: back).filter (fun m => SetsFlags other m.1) = [m] := by
    simpa [List.filter_cons, hm, List.filter_eq_nil_iff] using hback
  rw [LastSetterStays, List.filter_append, hlast, List.getLast?_concat]
  simp

theorem exists_last_setter (ms : List (Text × Bool)) :
    (∀ m ∈ ms, ¬ SetsFlags other m.1) ∨ ∃ front m back, ms = front ++ m :: back ∧
      SetsFlags other m.1 ∧ ∀ n ∈ back, ¬ SetsFlags other n.1 := by
  induction ms with
  | nil => exact .inl (by simp)
  | cons m ms ih =>
    rcases ih with hnone | ⟨front, n, back, rfl, hn, hback⟩
    · by_cases hm : SetsFlags other m.1
      · exact .inr ⟨[], m, ms, rfl, hm, hnone⟩
      · exact .inl (List.forall_mem_cons.mpr ⟨hm, hnone⟩)
    · exact .inr ⟨m :: front, n, back, rfl, hn, hback⟩

theorem stays_or_cancelled {ms : List (Text × Bool)} (hsteps : StepsMarked ms) :
    LastSetterStays other ms ∨ ∃ front s, LastSetterCancelled other ms front s := by
  rcases exists_last_setter other ms with hnone | ⟨front, ⟨l, cancelled⟩, back, rfl, hl, hback⟩
  · have hfilter : ms.filter (fun m => SetsFlags other m.1) = [] := by
      simpa [List.filter_eq_nil_iff] using hnone
    refine .inl ?_
    rw [LastSetterStays, hfilter]
    simp
  · cases cancelled with
    | false => exact .inl ((lastSetterStays_iff other hl hback).mpr rfl)
    | true =>
      obtain ⟨s, hs⟩ := hsteps l (List.mem_append_right _ List.mem_cons_self)
      exact .inr ⟨front, s, l, back, rfl, hback, hs⟩

theorem ReadsSettled.of_split {front back : List (Text × Bool)} {m : Text × Bool}
    (h : ReadsSettled other (front ++ m :: back)) (hm : (lineEffect other m.1).use = .reads) :
    LastSetterStays other front := by
  have hmem : (m, front.length) ∈ (front ++ m :: back).zipIdx := by
    rw [List.mk_mem_zipIdx_iff_getElem?]
    simp
  have hstays := h (m, front.length) hmem hm
  rwa [List.take_left'] at hstays
  rfl

/-! ### Flags that are lost -/

/-- The flags N and Z that cancelled lines would have left, until a line that stays sets them. The
processor is the one on the lines that stay. -/
def lostFlags : List (Text × Bool) → Cpu → Option (Bool × Bool) → Option (Bool × Bool)
  | [], _, lost => lost
  | (l, true) :: ms, c, _ => lostFlags ms c ((IndexStep.ofLine? l).map (·.flags c))
  | (l, false) :: ms, c, lost =>
    lostFlags ms ((lineEffect other l).run c) (if SetsFlags other l then none else lost)

theorem lostFlags_append (ms ns : List (Text × Bool)) (c : Cpu) (lost : Option (Bool × Bool)) :
    lostFlags other (ms ++ ns) c lost =
      lostFlags other ns (runLines other (unmarked ms) c) (lostFlags other ms c lost) := by
  induction ms generalizing c lost with
  | nil => rfl
  | cons m ms ih =>
    obtain ⟨l, cancelled⟩ := m
    cases cancelled with
    | true => exact ih _ _
    | false => exact ih _ _

theorem lostFlags_of_not_sets {ms : List (Text × Bool)} (hsteps : StepsMarked ms)
    (h : ∀ m ∈ ms, ¬ SetsFlags other m.1) (c : Cpu) (lost : Option (Bool × Bool)) :
    lostFlags other ms c lost = lost := by
  induction ms generalizing c with
  | nil => rfl
  | cons m ms ih =>
    obtain ⟨l, cancelled⟩ := m
    obtain ⟨hl, hms⟩ := List.forall_mem_cons.mp h
    cases cancelled with
    | true =>
      obtain ⟨s, hs⟩ := hsteps l List.mem_cons_self
      exact absurd (setsFlags_of_step other hs) hl
    | false =>
      rw [lostFlags, if_neg hl]
      exact ih (hsteps.mono (List.subset_cons_self ..)) hms _

theorem lostFlags_of_cancelled {ms front : List (Text × Bool)} {s : IndexStep}
    (hsteps : StepsMarked ms) (h : LastSetterCancelled other ms front s) (c : Cpu) :
    lostFlags other ms c none = some (s.flags (runLines other (unmarked front) c)) := by
  obtain ⟨l, back, rfl, hback, hs⟩ := h
  have hsub : back ⊆ front ++ (l, true) :: back :=
    List.subset_append_of_subset_right front (List.subset_cons_self ..)
  rw [lostFlags_append, lostFlags, lostFlags_of_not_sets other (hsteps.mono hsub) hback, hs]
  rfl

theorem lostFlags_of_stays {ms : List (Text × Bool)} (hsteps : StepsMarked ms)
    (h : LastSetterStays other ms) (c : Cpu) : lostFlags other ms c none = none := by
  rcases exists_last_setter other ms with hnone | ⟨front, ⟨l, cancelled⟩, back, rfl, hl, hback⟩
  · exact lostFlags_of_not_sets other hsteps hnone c none
  · have hsub : back ⊆ front ++ (l, cancelled) :: back :=
      List.subset_append_of_subset_right front (List.subset_cons_self ..)
    obtain rfl : cancelled = false := (lastSetterStays_iff other hl hback).mp h
    rw [lostFlags_append, lostFlags, if_pos hl,
      lostFlags_of_not_sets other (hsteps.mono hsub) hback]

/-- A line that does not read lost flags does the same with and without them. -/
theorem run_restore {l : Text} {lost : Option (Bool × Bool)}
    (hreads : (lineEffect other l).use = .reads → lost = none) (c : Cpu) :
    (lineEffect other l).run (c.restore lost) =
      ((lineEffect other l).run c).restore (if SetsFlags other l then none else lost) := by
  cases lost with
  | none =>
    rw [ite_self]
    rfl
  | some f =>
    cases huse : (lineEffect other l).use with
    | keeps =>
      rw [if_neg (by simp [SetsFlags, huse])]
      exact (lineEffect other l).of_keeps huse c f
    | sets =>
      have hsets : SetsFlags other l := huse
      rw [if_pos hsets]
      exact (lineEffect other l).of_sets huse c f
    | reads => cases hreads huse

/-- All lines do what those do that stay, but for the flags that are lost. The processor on the
lines that stay carries the induction, with the flags lost so far. -/
theorem runLines_restore {ls : List Text} {lost : Option (Bool × Bool)} {c : Cpu}
    (hreads : ∀ front l back, cancelMarks ls = front ++ (l, false) :: back →
      (lineEffect other l).use = .reads → lostFlags other front c lost = none) :
    runLines other ls (c.restore lost) = (runLines other (unmarked (cancelMarks ls)) c).restore
      (lostFlags other (cancelMarks ls) c lost) := by
  fun_induction cancelMarks ls generalizing lost c with
  | case1 first second rest hcancels ih =>
    obtain ⟨s, hfirst, hsecond⟩ := exists_step_of_cancels hcancels
    have hpair : runLines other (first :: second :: rest) (c.restore lost) =
        runLines other rest (c.restore (some (s.opposite.flags c))) := by
      rw [runLines_cons, runLines_cons, lineEffect_of_step other hfirst,
        lineEffect_of_step other hsecond, ← s.opposite.refresh_restore c lost, ← s.run_opposite]
      rfl
    have hlost (ms : List (Text × Bool)) :
        lostFlags other ((first, true) :: (second, true) :: ms) c lost =
          lostFlags other ms c (some (s.opposite.flags c)) := by
      rw [lostFlags, lostFlags, hsecond]
      rfl
    rw [hpair, hlost]
    apply ih
    intro front l back hsplit huse
    have hnone := hreads ((first, true) :: (second, true) :: front) l back (by rw [hsplit]; rfl)
    rw [hlost] at hnone
    exact hnone huse
  | case2 first second rest hcancels ih =>
    have hfirst : (lineEffect other first).use = .reads → lost = none := hreads [] first _ rfl
    rw [runLines_cons, run_restore other hfirst]
    apply ih
    intro front l back hsplit huse
    exact hreads ((first, false) :: front) l back (by rw [hsplit]; rfl) huse
  | case3 ls hls =>
    match ls with
    | [] => rfl
    | [l] => exact run_restore other (hreads [] l [] rfl) c
    | first :: second :: rest => exact absurd rfl (hls first second rest)

end Run

section Settled

variable {other : Text → Effect} {body : List Text}
  (hreads : ReadsSettled other (cancelMarks body))

include hreads

theorem ReadsSettled.runLines_eq (c : Cpu) : runLines other body c =
    (runLines other (cancelLines body) c).restore (lostFlags other (cancelMarks body) c none) := by
  rw [← unmarked_cancelMarks]
  refine @runLines_restore other body none c fun front l back hsplit huse => ?_
  have hsteps := (stepsMarked_cancelMarks body).mono (hsplit ▸ List.subset_append_left ..)
  rw [hsplit] at hreads
  exact lostFlags_of_stays other hsteps (hreads.of_split other huse) c

/-- Where the last line that sets N and Z stays, the flags are the same as well. -/
theorem ReadsSettled.runLines_of_stays (h : LastSetterStays other (cancelMarks body)) (c : Cpu) :
    runLines other body c = runLines other (cancelLines body) c := by
  rw [hreads.runLines_eq c, lostFlags_of_stays other (stepsMarked_cancelMarks body) h]
  rfl

/-- Where it is cancelled, a branch at the end sees the flags of the register stepped, and without
the step those from before. -/
theorem ReadsSettled.taken_of_cancelled {front : List (Text × Bool)} {s : IndexStep}
    (h : LastSetterCancelled other (cancelMarks body) front s) (b : FlagBranch) (c : Cpu) :
    b.taken (runLines other body c) = b.taken (s.refresh (runLines other (unmarked front) c)) ∧
      b.taken (runLines other (cancelLines body) c) =
        b.taken (runLines other (unmarked front) c) := by
  constructor
  · rw [hreads.runLines_eq c, lostFlags_of_cancelled other (stepsMarked_cancelMarks body) h]
    exact b.taken_congr rfl
  · obtain ⟨l, back, hsplit, hback, hs⟩ := h
    apply b.taken_congr
    rw [← unmarked_cancelMarks, hsplit, unmarked_append, runLines_append]
    rw [hsplit] at hreads
    refine flags_runLines other (fun k hk => ?_) _
    obtain ⟨⟨k', cancelled⟩, hmem, rfl⟩ := List.mem_map.mp hk
    obtain ⟨hmem, hstays⟩ := List.mem_filter.mp hmem
    rcases List.mem_cons.mp hmem with heq | hmem
    · cases heq
      cases hstays
    -- The line that is left sets no flags, and it reads none since those of the step are lost.
    cases huse : (lineEffect other k').use with
    | keeps => rfl
    | sets => exact absurd huse (hback _ hmem)
    | reads =>
      obtain ⟨pre, post, rfl⟩ := List.append_of_mem hmem
      rw [← List.cons_append, ← List.append_assoc] at hreads
      have hpre : ∀ m ∈ pre, ¬ SetsFlags other m.1 := fun m hm =>
        hback m (List.mem_append_left _ hm)
      have hstays := hreads.of_split other huse
      cases (lastSetterStays_iff other (setsFlags_of_step other hs) hpre).mp hstays

end Settled

/-! ### Texts that end in a branch -/

namespace Text

/-- The lines of a text all end in a newline, but the last one may lack it. -/
theorem exists_lines (t : Text) : ∃ (front : List Text) (last : Text),
    lines t = front ++ (if last = [] then [] else [last]) ∧ (∀ l ∈ front, IsLine l) ∧
      newline ∉ last := by
  induction t with
  | nil => exact ⟨[], [], rfl, by simp, by simp⟩
  | cons b t ih =>
    obtain ⟨front, last, hlines, hfront, hlast⟩ := ih
    by_cases hb : b = newline
    · have hline : IsLine [b] := ⟨[], List.not_mem_nil, by rw [hb]; rfl⟩
      refine ⟨[b] :: front, last, ?_, List.forall_mem_cons.mpr ⟨hline, hfront⟩, hlast⟩
      rw [lines, if_pos hb, hlines, List.cons_append]
    · rw [lines, if_neg hb, hlines]
      cases front with
      | nil =>
        refine ⟨[], b :: last, ?_, by simp, by simp [hlast, Ne.symm hb]⟩
        by_cases hnil : last = [] <;> simp [hnil]
      | cons l front =>
        obtain ⟨⟨u, hu, rfl⟩, hrest⟩ := List.forall_mem_cons.mp hfront
        have hline : IsLine (b :: (u ++ [newline])) := ⟨b :: u, by simp [hu, Ne.symm hb], rfl⟩
        exact ⟨_ :: front, last, rfl, List.forall_mem_cons.mpr ⟨hline, hrest⟩, hlast⟩

theorem lines_of_last {last : Text} (hne : last ≠ []) (h : newline ∉ last) :
    lines last = [last] := by
  induction last with
  | nil => exact absurd rfl hne
  | cons b last ih =>
    obtain ⟨hb, hlast⟩ := not_or.mp (mt List.mem_cons.mpr h)
    rw [lines, if_neg (Ne.symm hb)]
    cases last with
    | nil => rfl
    | cons b' last => rw [ih (List.cons_ne_nil b' last) hlast]

/-- Some of the lines of a text put together are cut into the same lines again. -/
theorem lines_flatten_of_sublist {t : Text} {ls : List Text} (h : ls.Sublist (lines t)) :
    lines ls.flatten = ls := by
  obtain ⟨front, last, hlines, hfront, hlast⟩ := exists_lines t
  rw [hlines] at h
  obtain ⟨ls, ms, rfl, hls, hms⟩ := List.sublist_append_iff.mp h
  have hwhole : ∀ l ∈ ls, IsLine l := fun l hl => hfront l (hls.subset hl)
  have hended : IsEnded ls.flatten := by
    rw [← List.flatMap_id]
    refine .flatMap fun l hl => ?_
    obtain ⟨u, -, rfl⟩ := hwhole l hl
    exact .inr ⟨u, rfl⟩
  rw [List.flatten_append, hended.lines_append, lines_flatten hwhole]
  congr 1
  by_cases hne : last = []
  · rw [if_pos hne, List.sublist_nil] at hms
    rw [hms]
    rfl
  · rw [if_neg hne] at hms
    rcases List.sublist_singleton.mp hms with rfl | rfl
    · rfl
    · rw [List.flatten_singleton, lines_of_last hne hlast]

def EndsIn (t : Text) (body : List Text) (b : FlagBranch) : Prop :=
  ∃ last, t.lines = body ++ [last] ∧ FlagBranch.ofLine? last = some b

end Text

theorem lines_peephole_eq (t : Text) : (peephole t).lines = cancelLines t.lines := by
  rw [peephole_eq_flatten]
  exact Text.lines_flatten_of_sublist (cancelLines_sublist t.lines)

/-- The branch at the end stays there. -/
theorem Text.EndsIn.peephole {t : Text} {body : List Text} {b : FlagBranch} (h : t.EndsIn body b) :
    (peephole t).EndsIn (cancelLines body) b := by
  obtain ⟨last, hlines, hlast⟩ := h
  refine ⟨last, ?_, hlast⟩
  rw [lines_peephole_eq, hlines, cancelLines_append]
  exact List.forall_mem_singleton.mpr (FlagBranch.indexStep_of_ofLine? hlast)

/-- Cancelling index steps in a text that ends in a branch on N or Z leaves the branch at the end
and the processor before it as it is but for these flags, if no line reads them that would see the
flags of a cancelled step. The branch is taken as before exactly if the last line that sets N and Z
stays, or the flag tested is for the register of the cancelled step what it was before. -/
theorem peephole_preserves_iff (other : Text → Effect) {t : Text} {body : List Text}
    {b : FlagBranch} (ht : t.EndsIn body b) (hreads : ReadsSettled other (cancelMarks body))
    (c : Cpu) :
    (peephole t).EndsIn (cancelLines body) b ∧
      (∃ f, runLines other body c = (runLines other (cancelLines body) c).withFlags f) ∧
      (b.taken (runLines other (cancelLines body) c) = b.taken (runLines other body c) ↔
        ∀ front s, LastSetterCancelled other (cancelMarks body) front s →
          b.taken (s.refresh (runLines other (unmarked front) c)) =
            b.taken (runLines other (unmarked front) c)) := by
  refine ⟨ht.peephole, ?_, ?_, ?_⟩
  · rw [hreads.runLines_eq c]
    cases lostFlags other (cancelMarks body) c none with
    | none => exact ⟨_, (Cpu.withFlags_flags _).symm⟩
    | some f => exact ⟨f, rfl⟩
  · intro htaken front s hcancelled
    obtain ⟨hall, hstay⟩ := hreads.taken_of_cancelled hcancelled b c
    rw [← hall, ← hstay, htaken]
  · intro hsame
    rcases stays_or_cancelled other (stepsMarked_cancelMarks body) with
      hstays | ⟨front, s, hcancelled⟩
    · rw [hreads.runLines_of_stays hstays]
    · obtain ⟨hall, hstay⟩ := hreads.taken_of_cancelled hcancelled b c
      rw [hall, hstay, hsame front s hcancelled]

namespace Discarding

def load : Effect where
  run c := c.setA (c.mem 0x1000)
  use := .sets
  of_keeps := nofun
  of_sets _ _ _ := rfl

def store : Effect where
  run c := c.store (0xce00 + c.x.setWidth 16) c.a
  use := .keeps
  of_keeps _ _ _ := rfl
  of_sets := nofun

def saveFlags : Effect where
  run c := c.push (0x30 ||| (if c.negative then 0x80 else 0) |||
    (if c.overflow then 0x40 else 0) ||| (if c.zero then 0x02 else 0) |||
    if c.carry then 0x01 else 0)
  use := .reads
  of_keeps := nofun
  of_sets := nofun

def other (l : Text) : Effect :=
  if l = "\tlda  v\n" then load else if l = "\tphp\n" then saveFlags else store

/-- A variable is put on the evaluation stack and discarded. -/
def body : List Text := ["\tlda  v\n", "\tsta  $ce00,x\n", "\tdex\n", "\tinx\n"]

def saving : List Text :=
  ["\tlda  v\n", "\tsta  $ce00,x\n", "\tdex\n", "\tinx\n", "\tphp\n"]

/-- An entry is discarded before the variable is loaded and the flags are saved. -/
def reloading : List Text :=
  ["\tdex\n", "\tinx\n", "\tlda  v\n", "\tphp\n", "\tsta  $ce00,x\n"]

def branch : Text := "\tbeq  out\n"

/-- The stack is empty and the variable is zero. -/
def cpu : Cpu := ⟨0, 255, 0, 0xff, false, false, false, false, fun _ => 0⟩

end Discarding

open Discarding in
theorem peephole_preserves_iff_reloading :
    cancelLines reloading = ["\tlda  v\n", "\tphp\n", "\tsta  $ce00,x\n"] ∧
    FlagBranch.beq.taken (runLines other (cancelLines reloading) cpu) =
      FlagBranch.beq.taken (runLines other reloading cpu) := by
  have ht : Text.EndsIn (reloading.flatten ++ branch) reloading .beq :=
    ⟨branch, by decide, by decide⟩
  have hstays : LastSetterStays other (cancelMarks reloading) := by decide
  refine ⟨by decide, (peephole_preserves_iff other ht (by decide) cpu).2.2.mpr ?_⟩
  rintro front s ⟨l, back, hsplit, hback, hs⟩
  rw [hsplit, lastSetterStays_iff other (setsFlags_of_step other hs) hback] at hstays
  cases hstays

open Discarding in
/-- The branch tests the stack pointer, and the variable once the steps are cancelled. Flags that
are saved after the steps differ in the same way. -/
theorem peephole_changes_run :
    (Text.EndsIn (body.flatten ++ branch) body .beq ∧
      peephole (body.flatten ++ branch) = "\tlda  v\n\tsta  $ce00,x\n\tbeq  out\n" ∧
      FlagBranch.beq.taken (runLines other body cpu) = false ∧
      FlagBranch.beq.taken (runLines other (cancelLines body) cpu) = true) ∧
    (Text.EndsIn (saving.flatten ++ branch) saving .beq ∧
      peephole (saving.flatten ++ branch) = "\tlda  v\n\tsta  $ce00,x\n\tphp\n\tbeq  out\n" ∧
      (runLines other saving cpu).mem 0x1ff = 0xb0 ∧
      (runLines other (cancelLines saving) cpu).mem 0x1ff = 0x32) :=
  ⟨⟨⟨branch, by decide, by decide⟩, by decide, by decide, by decide⟩,
    ⟨branch, by decide, by decide⟩, by decide, by decide, by decide⟩

end Stack6502
