import Stack6502.Emit.Assembly
import Stack6502.Proofs.SelectionOffers

/-!
# Selection makes progress

With the patterns at hand selection meets no defect on any code, and a fragment stands for at least
one instruction and only for complete ones within reach. So the code of a block is cut into pieces
one after another until none is left or none can be translated.
-/
namespace Stack6502

open Selection

theorem Lowering.size_of_offer? {name : Text} {lowering : Option Lowering} {w : List Instr}
    {pool : FloatPool} {f : Fragment} (h : f ∈ Lowering.offer? name lowering w pool) :
    f.size = w.length := by
  obtain ⟨-, -, -, -, rfl⟩ := Lowering.of_offer?_eq_some h
  rfl

/-- The code of the opcode on its own does not decline the instruction. -/
def Instr.IsAccepted (scope : Option Text) (x : Instr) : Prop :=
  ∀ op f, x.op = .known op → fallback? op = some f → ∀ s, (f scope x s).1 ≠ .ok none

namespace Selection

variable {n : Nat} {code : List Instr}

theorem reach_prefix : reach n code <+: code.take n := List.takeWhile_prefix _

theorem length_reach_le : (reach n code).length ≤ min n code.length := by
  have h : (reach n code).length ≤ (code.take n).length := reach_prefix.length_le
  rwa [List.length_take] at h

theorem reach_cons (hn : 0 < n) {x : Instr} (hx : x.isComplete) (code : List Instr) :
    reach n (x :: code) = x :: reach (n - 1) code := by
  rw [reach, List.take_cons hn, List.takeWhile_cons_of_pos hx]
  rfl

theorem take_reach {k : Nat} (hk : k ≤ (reach n code).length) :
    (reach n code).take k = code.take k := by
  obtain ⟨tail, htail⟩ : reach n code <+: code := reach_prefix.trans (List.take_prefix n code)
  conv_rhs => rw [← htail, List.take_append_of_le_length hk]

theorem isComplete_of_mem_take {k : Nat} (hk : k ≤ (reach n code).length) {x : Instr}
    (hx : x ∈ code.take k) : x.isComplete := by
  rw [← take_reach hk] at hx
  exact Catalog.isComplete_of_mem_reach (List.mem_of_mem_take hx)

/-- The code of one instruction counts nothing and stands for that instruction alone. -/
theorem alone_progress {x : Instr} {op : Opcode} (hx : x.IsWhole op) (scope : Option Text)
    (s : Session) : ∃ o t, (alone scope op x).run.run s = (.ok o, t) ∧ t.tally = s.tally ∧
      (∀ f ∈ o, f.size = 1) ∧ (x.IsAccepted scope → o.isSome) := by
  obtain ⟨f, hf, hanswers⟩ := fallback_answers hx
  obtain ⟨⟨c, hc⟩, htally⟩ := hanswers scope s
  refine ⟨_, _, alone_run hf (Prod.ext hc rfl), htally, fun g hg => ?_, fun haccepted => ?_⟩
  · obtain ⟨_, -, rfl⟩ := Option.map_eq_some_iff.mp hg
    rfl
  · cases c with
    | none => exact absurd hc (haccepted op f hx.1 hf s)
    | some c => rfl

end Selection

namespace Catalog

/-- The patterns offer fragments for at least one instruction, and for no more than there are. -/
theorem IsSound.size_of_bids {c : Catalog} (hc : c.IsSound) {op : Opcode} {w : List Instr}
    (hw : w ≠ []) : ∀ bid ∈ c.bids op w, ∀ pool, ∀ f ∈ bid.1 pool,
      1 ≤ f.size ∧ f.size ≤ w.length := by
  have hlen : 0 < w.length := List.length_pos_iff.mpr hw
  intro bid hbid pool f hf
  rcases List.mem_append.mp hbid with hbid | hbid
  · obtain ⟨i, hi, rfl⟩ := List.mem_map.mp hbid
    obtain ⟨-, hf⟩ := Option.mem_ite_none_right.mp hf
    have hspan := hc.span_pos i.1 (List.fst_mem_of_mem_zipIdx hi)
    rw [Lowering.size_of_offer? hf, List.length_take]
    omega
  · obtain ⟨r, hr, rfl⟩ := List.mem_map.mp hbid
    obtain ⟨-, hf⟩ := Option.mem_ite_none_right.mp hf
    have hsize := Rule.size_pos (hc.isWellFormed r.2 (mem_of_mem_rulesAt hc.index hr))
    rw [Lowering.size_of_offer? hf, List.length_take]
    omega

theorem IsSound.select_run {c : Catalog} (hc : c.IsSound) (hwindow : 0 ≤ c.window)
    (scope : Option Text) (code : List Instr) (s : Session) :
    ∃ o t, (c.select scope code).run.run s = (.ok o, t) ∧ t.tally = s.tally ∧
      (∀ f ∈ o, 1 ≤ f.size ∧ f.size ≤ (reach c.window.toNat code).length) ∧
      ∀ x ∈ (reach c.window.toNat code).head?, x.IsAccepted scope → o.isSome := by
  rcases select_cases hc hwindow scope code s with ⟨hreach, hrun⟩ | h
  · exact ⟨none, s, hrun, rfl, by simp, by simp [hreach]⟩
  · obtain ⟨x, rest, op, best, pool, hreach, hx, hconsidered, hrun⟩ := h
    rw [hreach]
    cases best with
    | some b =>
      have hsize := hconsidered.forall_of_forall (hc.size_of_bids (by simp)) (by simp)
      refine ⟨some b.fragment, _, hrun, rfl, fun f hf => ?_, fun _ _ _ => rfl⟩
      obtain rfl := Option.mem_some.mp hf
      exact hsize b rfl
    | none =>
      obtain ⟨o, t, halone, htally, hsize, haccepted⟩ := alone_progress hx scope { s with pool }
      refine ⟨o, t, hrun.trans halone, htally, fun f hf => ?_, fun y hy => ?_⟩
      · rw [hsize f hf, List.length_cons]
        omega
      · obtain rfl := Option.mem_some.mp hy
        exact haccepted

theorem IsSound.of_select_eq_some {c : Catalog} (hc : c.IsSound) (hwindow : 0 ≤ c.window)
    {scope : Option Text} {code : List Instr} {s t : Session} {f : Fragment}
    (h : (c.select scope code).run.run s = (.ok (some f), t)) :
    t.tally = s.tally ∧ 1 ≤ f.size ∧ f.size ≤ (reach c.window.toNat code).length := by
  obtain ⟨o, u, hrun, htally, hsize, -⟩ := hc.select_run hwindow scope code s
  rw [h] at hrun
  cases hrun
  exact ⟨htally, hsize f rfl⟩

theorem window_nonneg_of_select {c : Catalog} {scope : Option Text} {code : List Instr}
    {s t : Session} {o : Option Fragment} (h : (c.select scope code).run.run s = (.ok o, t)) :
    0 ≤ c.window := by
  by_contra hneg
  rw [select, if_pos (Int.not_le.mp hneg)] at h
  cases h

theorem window_nonneg_of_selectAll {c : Catalog} {scope : Option Text} {code rest : List Instr}
    {s t : Session} {fs : List Fragment} (hcode : code ≠ [])
    (h : (c.selectAll scope code).run s = (⟨fs, rest, none⟩, t)) : 0 ≤ c.window := by
  obtain ⟨x, code, rfl⟩ := List.exists_cons_of_ne_nil hcode
  cases hrun : (c.select scope (x :: code)).run.run s with
  | mk r u =>
    rw [selectAll, StateT.run_bind, hrun] at h
    cases r with
    | error d => cases h
    | ok o => exact window_nonneg_of_select hrun

/-- Fragments selected one after another, each at the code that the ones before it leave, with the
code and the session that remain. -/
inductive Takes (c : Catalog) (scope : Option Text) :
    List Instr → Session → List Fragment → List Instr → Session → Prop
  | nil (code : List Instr) (s : Session) : Takes c scope code s [] code s
  | cons {code rest : List Instr} {s t u : Session} {f : Fragment} {fs : List Fragment} :
    (c.select scope code).run.run s = (.ok (some f), t) →
    Takes c scope (code.drop f.size) t fs rest u → Takes c scope code s (f :: fs) rest u

/-- After a fragment the rest of the code is selected from. -/
theorem IsSound.selectAll_of_select {c : Catalog} (hc : c.IsSound) (hwindow : 0 ≤ c.window)
    {scope : Option Text} {code rest : List Instr} {s t u : Session} {f : Fragment}
    {fs : List Fragment} {d : Option Defect}
    (hrun : (c.select scope code).run.run s = (.ok (some f), t))
    (hall : (c.selectAll scope (code.drop f.size)).run t = (⟨fs, rest, d⟩, u)) :
    (c.selectAll scope code).run s = (⟨f :: fs, rest, d⟩, u) := by
  obtain ⟨-, hpos, hle⟩ := hc.of_select_eq_some hwindow hrun
  cases code with
  | nil =>
    have hlen : (reach c.window.toNat []).length ≤ 0 := Nat.le_trans length_reach_le (by simp)
    omega
  | cons x code =>
    rw [List.drop_cons hpos] at hall
    rw [selectAll, StateT.run_bind, hrun]
    change (c.selectAll scope _ >>= fun r => pure { r with fragments := f :: r.fragments }).run
      t = _
    rw [StateT.run_bind, hall]
    rfl

theorem IsSound.selectAll_run {c : Catalog} (hc : c.IsSound) (hwindow : 0 ≤ c.window)
    (scope : Option Text) (code : List Instr) (s : Session) :
    ∃ fs rest t u, c.Takes scope code s fs rest t ∧ u.tally = t.tally ∧
      (c.selectAll scope code).run s = (⟨fs, rest, none⟩, u) ∧
      (rest ≠ [] → (c.select scope rest).run.run t = (.ok none, u)) := by
  -- On the length of the code, since a fragment drops as many instructions as its size says.
  induction hn : code.length using Nat.strongRecOn generalizing code s with
  | ind n ih =>
    cases code with
    | nil => exact ⟨[], [], s, s, .nil [] s, rfl, by rw [selectAll]; rfl, by simp⟩
    | cons x code =>
      obtain ⟨o, t, hrun, htally, hsize, -⟩ := hc.select_run hwindow scope (x :: code) s
      cases o with
      | none =>
        refine ⟨[], x :: code, s, t, .nil _ s, htally, ?_, fun _ => hrun⟩
        rw [selectAll, StateT.run_bind, hrun]
        rfl
      | some f =>
        obtain ⟨hpos, -⟩ := hsize f rfl
        have hlt : ((x :: code).drop f.size).length < n := by
          rw [List.length_drop, ← hn, List.length_cons]
          omega
        obtain ⟨fs, rest, u, v, htakes, hv, hall, hstuck⟩ := ih _ hlt _ t rfl
        exact ⟨f :: fs, rest, u, v, .cons hrun htakes, hv,
          hc.selectAll_of_select hwindow hrun hall, hstuck⟩

/-- Fragments taken until no code is left are what is selected from the whole code. -/
theorem Takes.selectAll_run {c : Catalog} (hc : c.IsSound) (hwindow : 0 ≤ c.window)
    {scope : Option Text} {code rest : List Instr} {s t : Session} {fs : List Fragment}
    (h : c.Takes scope code s fs rest t) (hrest : rest = []) :
    (c.selectAll scope code).run s = (⟨fs, [], none⟩, t) := by
  induction h with
  | nil =>
    subst hrest
    rw [selectAll]
    rfl
  | cons hrun _ ih => exact hc.selectAll_of_select hwindow hrun (ih hrest)

theorem Takes.unique {c : Catalog} (hc : c.IsSound) (hwindow : 0 ≤ c.window)
    {scope : Option Text} {code : List Instr} {s t u : Session} {fs gs : List Fragment}
    (h : c.Takes scope code s fs [] t) (h' : c.Takes scope code s gs [] u) : fs = gs := by
  have hrun := (h.selectAll_run hc hwindow rfl).symm.trans (h'.selectAll_run hc hwindow rfl)
  exact (Selection.mk.inj (Prod.mk.inj hrun).1).1

theorem Takes.tally_eq {c : Catalog} (hc : c.IsSound) (hwindow : 0 ≤ c.window)
    {scope : Option Text} {code rest : List Instr} {s t : Session} {fs : List Fragment}
    (h : c.Takes scope code s fs rest t) : t.tally = s.tally := by
  induction h with
  | nil => rfl
  | cons hrun _ ih => rw [ih, (hc.of_select_eq_some hwindow hrun).1]

/-- The fragments cut the code into pieces, each related to its fragment as selection relates
them. -/
theorem Takes.exists_pieces {R : List Instr → Fragment → Prop} {c : Catalog} {scope : Option Text}
    (hstep : ∀ {code s f t}, (c.select scope code).run.run s = (.ok (some f), t) →
      R (code.take f.size) f)
    {code rest : List Instr} {s t : Session} {fs : List Fragment}
    (h : c.Takes scope code s fs rest t) :
    ∃ pieces, List.Forall₂ R pieces fs ∧ code = pieces.flatten ++ rest := by
  induction h with
  | nil => exact ⟨[], .nil, rfl⟩
  | @cons code _ _ _ _ f _ hrun _ ih =>
    obtain ⟨pieces, hpieces, hcode⟩ := ih
    refine ⟨code.take f.size :: pieces, .cons (hstep hrun) hpieces, ?_⟩
    rw [List.flatten_cons, List.append_assoc, ← hcode, List.take_append_drop]

/-- A fragment stands for as many instructions as its size says, and for one at least. -/
theorem IsSound.length_take {c : Catalog} (hc : c.IsSound) (hwindow : 0 ≤ c.window)
    {scope : Option Text} {code : List Instr} {s t : Session} {f : Fragment}
    (h : (c.select scope code).run.run s = (.ok (some f), t)) :
    code.take f.size ≠ [] ∧ (code.take f.size).length = f.size := by
  obtain ⟨-, hpos, hle⟩ := hc.of_select_eq_some hwindow h
  have hlen : (code.take f.size).length = f.size :=
    List.length_take_of_le (Nat.le_trans hle (Nat.le_trans length_reach_le (Nat.min_le_right ..)))
  refine ⟨List.length_pos_iff.mp ?_, hlen⟩
  omega

end Catalog

namespace Tally

theorem sum_addTo (name : Text) (n : Nat) (counts : List (Text × Nat)) :
    ((addTo name n counts).map (·.2)).foldr (· + ·) 0 =
      (counts.map (·.2)).foldr (· + ·) 0 + n := by
  induction counts with
  | nil => simp [addTo]
  | cons entry rest ih =>
    obtain ⟨other, k⟩ := entry
    rw [addTo]
    split
    · simp only [List.map_cons, List.foldr_cons]
      omega
    · simp only [List.map_cons, List.foldr_cons, ih]
      omega

/-- Counting fragments adds one for each. -/
theorem total_count (t : Tally) (fs : List Fragment) :
    (fs.foldl (fun t f => t.add f.name) t).total = t.total + fs.length := by
  induction fs generalizing t with
  | nil => rfl
  | cons f fs ih =>
    have hadd : (t.add f.name).total = t.total + 1 := sum_addTo f.name 1 t.counts
    rw [List.foldl_cons, ih, hadd, List.length_cons]
    omega

end Tally

def Session.counting (s : Session) (fs : List Fragment) : Session :=
  { s with tally := fs.foldl (fun t f => t.add f.name) s.tally }

namespace Assembly

/-- Selecting from the whole code of a block does not fail as such. -/
theorem selectAll_run {m : StateM Session Selection} {s t : Session} {r : Selection}
    (h : m.run s = (r, t)) : (liftM m : Assembling Selection).run.run s = (.ok r, t) := by
  have hlift : (liftM m : Assembling Selection).run.run s = (.ok (m.run s).1, (m.run s).2) := rfl
  rw [hlift, h]

theorem codeText_run {c : Catalog} {b : Block} {s t : Session} {fs : List Fragment}
    {rest : List Instr}
    (h : (c.selectAll (some b.short) b.code).run s = (⟨fs, rest, none⟩, t)) :
    (codeText c b).run.run s = (if rest = [] then .ok (fs.flatMap Fragment.output)
      else .error (.inBlock b.name (.unmatched (rest.take c.window.toNat))), t.counting fs) := by
  rw [codeText, run_bind_of_ok (selectAll_run h)]
  cases rest with
  | nil => rfl
  | cons x rest => rfl

theorem of_codeText_eq_ok {c : Catalog} {b : Block} {s u : Session} {text : Text}
    (h : (codeText c b).run.run s = (.ok text, u)) :
    ∃ fs t, (c.selectAll (some b.short) b.code).run s = (⟨fs, [], none⟩, t) ∧
      text = fs.flatMap Fragment.output ∧ u = t.counting fs := by
  cases hall : (c.selectAll (some b.short) b.code).run s with
  | mk r t =>
    obtain ⟨fs, rest, defect⟩ := r
    rw [codeText, run_bind_of_ok (selectAll_run hall)] at h
    cases defect with
    | some d => cases h
    | none =>
      cases rest with
      | cons x rest => cases h
      | nil =>
        cases h
        exact ⟨fs, t, rfl, rfl, rfl⟩

/-- A block with code has a text only where the window is not negative. -/
theorem window_nonneg_of_codeText {c : Catalog} {b : Block} {s t : Session} {text : Text}
    (hcode : b.code ≠ []) (h : (codeText c b).run.run s = (.ok text, t)) : 0 ≤ c.window := by
  obtain ⟨fs, u, hall, -⟩ := of_codeText_eq_ok h
  exact Catalog.window_nonneg_of_selectAll hcode hall

end Assembly

namespace Catalog

/-- On any code whatsoever selection meets no defect, and a fragment stands for one instruction or
more, all of them complete and no more than the window and the code hold. There is a fragment
wherever a complete instruction is accepted on its own. -/
def SelectsSafely (c : Catalog) : Prop :=
  ∀ (scope : Option Text) (code : List Instr) (s : Session),
    ∃ o t, (c.select scope code).run.run s = (.ok o, t) ∧
      (∀ f ∈ o, 1 ≤ f.size ∧ f.size ≤ min c.window.toNat code.length ∧
        ∀ x ∈ code.take f.size, x.isComplete) ∧
      ∀ x ∈ code.head?, 0 < c.window → x.isComplete → x.IsAccepted scope → o.isSome

/-- The code of any block is cut into pieces with a fragment each, all of them counted. Then no code
is left and the text is that of the fragments, or there is no fragment for the code that is left,
and the window at its start is reported. -/
def CutsBlocks (c : Catalog) : Prop :=
  ∀ (b : Block) (s : Session), ∃ fs rest t u, c.Takes (some b.short) b.code s fs rest t ∧
    (∃ pieces, List.Forall₂ (fun piece f => piece ≠ [] ∧ piece.length = f.size) pieces fs ∧
      b.code = pieces.flatten ++ rest) ∧
    u.tally.total = s.tally.total + fs.length ∧
    (rest = [] ∧ (Assembly.codeText c b).run.run s = (.ok (fs.flatMap Fragment.output), u) ∨
      rest ≠ [] ∧ (∃ v, (c.select (some b.short) rest).run.run t = (.ok none, v)) ∧
        (Assembly.codeText c b).run.run s =
          (.error (.inBlock b.name (.unmatched (rest.take c.window.toNat))), u))

theorem IsSound.selectsSafely {c : Catalog} (hc : c.IsSound) (hwindow : 0 ≤ c.window) :
    c.SelectsSafely := by
  intro scope code s
  obtain ⟨o, t, hrun, -, hsize, haccepted⟩ := hc.select_run hwindow scope code s
  refine ⟨o, t, hrun, fun f hf => ?_, fun x hx hpos hcomplete => ?_⟩
  · obtain ⟨hpos, hle⟩ := hsize f hf
    exact ⟨hpos, Nat.le_trans hle length_reach_le, fun x hx => isComplete_of_mem_take hle hx⟩
  · obtain ⟨rest, rfl⟩ := List.head?_eq_some_iff.mp hx
    apply haccepted
    rw [reach_cons (by omega) hcomplete]
    rfl

theorem IsSound.cutsBlocks {c : Catalog} (hc : c.IsSound) (hwindow : 0 ≤ c.window) :
    c.CutsBlocks := by
  intro b s
  obtain ⟨fs, rest, t, u, htakes, htally, hall, hstuck⟩ :=
    hc.selectAll_run hwindow (some b.short) b.code s
  have htotal : (u.counting fs).tally.total = s.tally.total + fs.length := by
    rw [Session.counting, Tally.total_count, htally, htakes.tally_eq hc hwindow]
  have hrun := Assembly.codeText_run hall
  refine ⟨fs, rest, t, u.counting fs, htakes, htakes.exists_pieces (hc.length_take hwindow),
    htotal, ?_⟩
  by_cases hrest : rest = []
  · rw [if_pos hrest] at hrun
    exact .inl ⟨hrest, hrun⟩
  · rw [if_neg hrest] at hrun
    exact .inr ⟨hrest, ⟨u, hstuck hrest⟩, hrun⟩

/-- The text of a block is that of fragments taken one after another until no code is left. -/
theorem IsSound.of_codeText_eq_ok {c : Catalog} (hc : c.IsSound) (hwindow : 0 ≤ c.window)
    {b : Block} {s t : Session} {text : Text}
    (h : (Assembly.codeText c b).run.run s = (.ok text, t)) :
    ∃ fs u, c.Takes (some b.short) b.code s fs [] u ∧ text = fs.flatMap Fragment.output := by
  obtain ⟨fs, rest, u, v, htakes, -, hall, -⟩ := hc.selectAll_run hwindow (some b.short) b.code s
  rw [Assembly.codeText_run hall] at h
  by_cases hrest : rest = []
  · subst hrest
    cases h
    exact ⟨fs, u, htakes, rfl⟩
  · rw [if_neg hrest] at h
    cases h

theorem Takes.codeText_run {c : Catalog} (hc : c.IsSound) (hwindow : 0 ≤ c.window) {b : Block}
    {s t : Session} {fs : List Fragment} (h : c.Takes (some b.short) b.code s fs [] t) :
    (Assembly.codeText c b).run.run s = (.ok (fs.flatMap Fragment.output), t.counting fs) := by
  rw [Assembly.codeText_run (h.selectAll_run hc hwindow rfl), if_pos rfl]

theorem make_all (window : Int) : make window Idiom.all Assignment.rules =
    .ok ⟨window, Idiom.all, Assignment.rules, indexOf Assignment.rules⟩ := by
  have hwell : ∀ r ∈ Assignment.rules, r.isWellFormed := by decide
  have hspan : ∀ i ∈ Idiom.all, 0 < i.span := by decide
  exact make_eq_ok_iff.mpr ⟨hwell, hspan, rfl⟩

theorem isSound_of_make {window : Int} {c : Catalog}
    (h : make window Idiom.all Assignment.rules = .ok c) : c.IsSound ∧ c.window = window := by
  obtain ⟨hwell, hspan, rfl⟩ := make_eq_ok_iff.mp h
  exact ⟨⟨Idiom.all_isSound, hspan, Assignment.rules_isSound, hwell, rfl⟩, rfl⟩

theorem isSound_standard : standard.IsSound := (isSound_of_make (make_all defaultWindow)).1

/-- Whatever the window, the catalog of all idioms and rules is well formed, selects safely from
any code, and cuts the code of every block into pieces. -/
theorem make_selectsSafely_cutsBlocks (window : Int) (hwindow : 0 ≤ window) :
    ∃ c, make window Idiom.all Assignment.rules = .ok c ∧ c.window = window ∧
      c.SelectsSafely ∧ c.CutsBlocks := by
  obtain ⟨c, hmake⟩ : ∃ c, make window Idiom.all Assignment.rules = .ok c := ⟨_, make_all window⟩
  obtain ⟨hsound, rfl⟩ := isSound_of_make hmake
  exact ⟨c, hmake, rfl, hsound.selectsSafely hwindow, hsound.cutsBlocks hwindow⟩

theorem make_selectsSafely_cutsBlocks_default : (0 : Int) ≤ defaultWindow ∧
    ∃ c, make defaultWindow Idiom.all Assignment.rules = .ok c ∧ c.window = defaultWindow ∧
      c.SelectsSafely ∧ c.CutsBlocks :=
  ⟨by decide, make_selectsSafely_cutsBlocks defaultWindow (by decide)⟩

end Catalog

end Stack6502
