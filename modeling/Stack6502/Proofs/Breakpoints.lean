import Stack6502.Proofs.AssembledText

/-!
# Breakpoints are numbered in program order

Each breakpoint is a fragment of its own, one line with a label that bears the next number. Nothing
else touches the counter, which starts anew with each program.
-/
namespace Stack6502

def breakpointText (n : Nat) : Text := "_tg_breakpoint_" ++ Text.ofNat n ++ [Text.tab] ++ "nop"

def breakpointFragment (n : Nat) : Fragment :=
  ⟨"fallback BREAKPOINT", [[.marked ("_tg_breakpoint_" ++ Text.ofNat n) .nop]], 1, false⟩

def breakpointLine (n : Nat) : Text := breakpointText n ++ [Text.newline]

/-- The lines of breakpoints at some places, numbered from `k` on. -/
def breakpointLines {α : Type} (k : Nat) (places : List α) : List (α × Text) :=
  (places.zipIdx k).map fun l => (l.1, breakpointLine l.2)

/-- The places of breakpoints, each the number of a block from `k` on and a place in its code. -/
def Block.breakpoints (k : Nat) (b : Block) : List (Nat × Nat) :=
  (b.code.zipIdx.filter (·.1.is .breakpoint)).map fun l => (k, l.2)

def Program.breakpoints (p : Program) : List (Nat × Nat) :=
  p.blocks.zipIdx.flatMap fun b => b.1.breakpoints b.2

theorem breakpointLines_append {α : Type} (k : Nat) (places more : List α) :
    breakpointLines k (places ++ more) =
      breakpointLines k places ++ breakpointLines (k + places.length) more := by
  rw [breakpointLines, List.zipIdx_append, List.map_append]
  rfl

theorem breakpointLines_map {α β : Type} (g : α → β) (k : Nat) (places : List α) :
    breakpointLines k (places.map g) = (breakpointLines k places).map fun l => (g l.1, l.2) := by
  rw [breakpointLines, breakpointLines, List.zipIdx_map, List.map_map, List.map_map]
  rfl

theorem exists_of_mem_breakpointLines {α : Type} {k : Nat} {places : List α} {l : α × Text}
    (h : l ∈ breakpointLines k places) : ∃ n, l.2 = breakpointLine n := by
  obtain ⟨place, -, rfl⟩ := List.mem_map.mp h
  exact ⟨place.2, rfl⟩

theorem Block.Renames.breakpoints {b c : Block} (h : b.Renames c) :
    (fun k => c.breakpoints k) = fun k => b.breakpoints k := by
  have hcode : c.code.map (·.is .breakpoint) = b.code.map (·.is .breakpoint) :=
    h.map_code fun x y hxy => by rw [Instr.is, Instr.is, hxy.op]
  have hplaces (b : Block) (k : Nat) : b.breakpoints k =
      ((b.code.map (·.is .breakpoint)).zipIdx.filter (·.1)).map fun l => (k, l.2) := by
    rw [List.zipIdx_map, List.filter_map, List.map_map]
    rfl
  funext k
  rw [hplaces, hplaces, hcode]

theorem Program.Renames.breakpoints {p q : Program} (h : p.Renames q) :
    q.breakpoints = p.breakpoints :=
  h.flatMap_blocks fun _ _ => Block.Renames.breakpoints

theorem length_filter_zipIdx (code : List Instr) (n : Nat) :
    ((code.zipIdx n).filter (·.1.is .breakpoint)).length = code.countP (·.is .breakpoint) := by
  conv_rhs => rw [← List.zipIdx_map_fst n code, List.countP_map]
  rw [List.countP_eq_length_filter]
  rfl

/-! ### The line of a breakpoint -/

theorem toNat_of_mem_breakpointText {n : Nat} {b : UInt8} (h : b ∈ breakpointText n) :
    b.toNat < 128 ∧ b ≠ Text.newline ∧ b ≠ Text.byte '|' := by
  have hall : (Text.ofString "_tg_breakpoint_" ++ [Text.tab] ++ Text.ofString "nop").all fun b =>
      b.toNat < 128 ∧ b ≠ Text.newline ∧ b ≠ Text.byte '|' := by decide
  have hletters := fun b hb => of_decide_eq_true (List.all_eq_true.mp hall b hb)
  simp only [breakpointText, List.mem_append] at h
  rcases h with ((h | h) | h) | h
  · exact hletters b (by simp [h])
  · have hdigit := Text.toNat_of_mem_ofNat h
    refine ⟨by omega, ?_, ?_⟩
    all_goals
      rintro rfl
      exact absurd hdigit (by decide)
  · exact hletters b (by simp_all)
  · exact hletters b (by simp [h])

theorem lines_breakpoint (n : Nat) :
    (breakpointFragment n).output.lines = [breakpointLine n] := by
  have hne : breakpointText n ≠ [] := List.append_ne_nil_of_right_ne_nil _ (by decide)
  have htext : Code.text [[.marked ("_tg_breakpoint_" ++ Text.ofNat n) .nop]] =
      breakpointText n := by
    have hline : Line.text " " (.marked ("_tg_breakpoint_" ++ Text.ofNat n) .nop) =
        breakpointText n := rfl
    simp [Code.text, Code.groupText, Text.join, hline, hne]
  have hbytes := @toNat_of_mem_breakpointText n
  have htrim : (breakpointText n).trim = breakpointText n := by
    have hnone : ∀ b ∈ ([] : Text), b = Text.space := by simp
    have hhead : (breakpointText n).head hne = Text.byte '_' := rfl
    have hlast : (breakpointText n).getLast hne = Text.byte 'p' := by
      apply Option.some.inj
      rw [← List.getLast?_eq_some_getLast hne, breakpointText, List.getLast?_append]
      rfl
    have htrim := Text.trim_append (t := breakpointText n) hnone (fun b hb => (hbytes hb).1) hne
      (by rw [hhead]; decide) (by rw [hlast]; decide)
    rwa [List.nil_append] at htrim
  have houtput : Fragment.pieceLines (breakpointText n) = breakpointLine n := by
    rw [Fragment.pieceLines_of_notMem (fun h => (hbytes h).2.1 rfl) (fun h => (hbytes h).2.2 rfl)
      (by rwa [htrim]), htrim]
    have hhead : (breakpointText n).head? = some (Text.byte '_') := rfl
    rw [hhead, if_neg (by decide)]
    rfl
  rw [Fragment.output, breakpointFragment, htext]
  exact (congrArg Text.lines houtput).trans (Text.lines_of_notMem fun h => (hbytes h).2.1 rfl)

theorem ofLine?_breakpointLine (n : Nat) : IndexStep.ofLine? (breakpointLine n) = none := rfl

/-! ### Counting breakpoints -/

/-- Code for other opcodes leaves the count alone. -/
theorem fallback_breakpoints {op : Opcode} {f : Fallback} (hf : fallback? op = some f)
    (hop : op ≠ .breakpoint) (scope : Option Text) (x : Instr) (s : Session) :
    (f scope x s).2.breakpoints = s.breakpoints := by
  rcases fallback?_cases hf with ⟨rfl, -⟩ | ⟨-, rfl⟩ | ⟨g, hg⟩
  · exact absurd rfl hop
  · unfold Fallback.pushFloat
    split
    · rfl
    · rfl
  · rw [hg]

namespace Catalog

/-- Selection leaves the count of breakpoints alone unless it takes one, and that has a fragment of
its own. -/
theorem breakpoints_of_select {window : Int} {c : Catalog}
    (hmake : make window Idiom.all Assignment.rules = .ok c)
    {scope : Option Text} {code : List Instr} {s t : Session} {f : Fragment}
    (h : (c.select scope code).run.run s = (.ok (some f), t)) :
    (t.breakpoints = s.breakpoints ∧ ∀ x ∈ code.take f.size, ¬ x.is .breakpoint) ∨
    (∃ x, code.take f.size = [x] ∧ x.is .breakpoint ∧ t.breakpoints = s.breakpoints + 1 ∧
      f.output.lines = [breakpointLine t.breakpoints]) := by
  rcases straight_or_alone_of_select hmake h with ⟨⟨pool, rfl⟩, hstraight⟩ | halone
  · refine .inl ⟨rfl, fun x hx hbreak => ?_⟩
    have hx := hstraight x hx
    rw [beq_iff_eq.mp hbreak] at hx
    cases hx
  · obtain ⟨x, op, fallback, pool, lines, hpiece, hx, hop, hcode, rfl⟩ := halone
    rw [hpiece]
    by_cases hbreak : op = .breakpoint
    · subst hbreak
      cases hop
      cases hcode
      exact .inr ⟨x, rfl, beq_iff_eq.mpr hx, rfl, lines_breakpoint _⟩
    · have ht := fallback_breakpoints hop hbreak scope x { s with pool }
      rw [hcode] at ht
      refine .inl ⟨ht, fun y hy hy' => hbreak ?_⟩
      obtain rfl := List.mem_singleton.mp hy
      exact Coded.known.inj (hx.symm.trans (beq_iff_eq.mp hy'))

/-- The breakpoints among the instructions that a fragment stands for. -/
theorem filter_emitted_of_select {window : Int} {c : Catalog}
    (hmake : make window Idiom.all Assignment.rules = .ok c)
    {scope : Option Text} {code : List Instr} {s t : Session} {f : Fragment}
    (h : (c.select scope code).run.run s = (.ok (some f), t)) (n : Nat) (fs : List Fragment) :
    t.breakpoints = s.breakpoints + (code.take f.size).countP (·.is .breakpoint) ∧
    (emitted n code (f :: fs)).filter (·.1.1.is .breakpoint) =
      breakpointLines (s.breakpoints + 1)
        (((code.take f.size).zipIdx n).filter (·.1.is .breakpoint)) ++
      (emitted (n + f.size) (code.drop f.size) fs).filter (·.1.1.is .breakpoint) := by
  obtain ⟨hc, rfl⟩ := isSound_of_make hmake
  obtain ⟨hne, -⟩ := hc.length_take (window_nonneg_of_select h) h
  cases code with
  | nil => simp at hne
  | cons y code =>
    have hy : y ∈ (y :: code).take f.size := by
      cases hsize : f.size with
      | zero => simp [hsize] at hne
      | succ k => exact List.mem_cons_self ..
    rw [emitted, List.filter_append]
    rcases breakpoints_of_select hmake h with ⟨hcount, hnone⟩ | halone
    · have hzip : (((y :: code).take f.size).zipIdx n).filter (·.1.is .breakpoint) = [] :=
        List.filter_eq_nil_iff.mpr fun l hl => hnone l.1 (List.fst_mem_of_mem_zipIdx hl)
      have hlines : (f.output.lines.map ((y, n), ·)).filter (·.1.1.is .breakpoint) = [] := by
        simpa [List.filter_eq_nil_iff] using fun _ _ => hnone y hy
      rw [hzip, hlines, List.countP_eq_zero.mpr hnone]
      exact ⟨hcount, rfl⟩
    · obtain ⟨x, hpiece, hx, hcount, hlines⟩ := halone
      rw [hpiece, List.mem_singleton] at hy
      subst hy
      rw [hpiece, hlines, hcount]
      simp [breakpointLines, hx]

theorem Takes.filter_emitted {window : Int} {c : Catalog}
    (hmake : make window Idiom.all Assignment.rules = .ok c)
    {scope : Option Text} {code rest : List Instr} {s t : Session} {fs : List Fragment}
    (h : c.Takes scope code s fs rest t) (hrest : rest = []) (n : Nat) :
    t.breakpoints = s.breakpoints + code.countP (·.is .breakpoint) ∧
    (emitted n code fs).filter (·.1.1.is .breakpoint) =
      breakpointLines (s.breakpoints + 1) ((code.zipIdx n).filter (·.1.is .breakpoint)) := by
  induction h generalizing n with
  | nil =>
    subst hrest
    exact ⟨rfl, rfl⟩
  | @cons code rest s t u f fs hrun _ ih =>
    obtain ⟨hcount, hlines⟩ := filter_emitted_of_select hmake hrun n fs
    obtain ⟨hcount', hlines'⟩ := ih hrest (n + f.size)
    have hcode : code.take f.size ++ code.drop f.size = code := List.take_append_drop ..
    obtain ⟨hc, rfl⟩ := isSound_of_make hmake
    obtain ⟨-, hlen⟩ := hc.length_take (window_nonneg_of_select hrun) hrun
    have hsplit : code.zipIdx n =
        (code.take f.size).zipIdx n ++ (code.drop f.size).zipIdx (n + f.size) := by
      conv_lhs => rw [← hcode, List.zipIdx_append, hlen]
    have hcounts : code.countP (·.is .breakpoint) =
        (code.take f.size).countP (·.is .breakpoint) +
          (code.drop f.size).countP (·.is .breakpoint) := by
      rw [← List.countP_append, hcode]
    refine ⟨by omega, ?_⟩
    rw [hlines, hlines', hsplit, List.filter_append, breakpointLines_append, hcount,
      length_filter_zipIdx, Nat.add_right_comm]

end Catalog

/-! ### The breakpoints of a text -/

namespace Assembly

def breakpointAt? (l : SourcedLine) : Option ((Nat × Nat) × Text) :=
  l.1.bind fun source => if source.1.is .breakpoint then some (source.2, l.2) else none

theorem filterMap_framed (t : Text) : (framed t).filterMap breakpointAt? = [] := by
  simp [framed, breakpointAt?]

theorem filterMap_emitted (k : Nat) (ls : List ((Instr × Nat) × Text)) :
    (ls.map fun l => ((some (l.1.1, k, l.1.2), l.2) : SourcedLine)).filterMap breakpointAt? =
      (ls.filter (·.1.1.is .breakpoint)).map fun l => ((k, l.1.2), l.2) := by
  induction ls with
  | nil => rfl
  | cons l ls ih =>
    rw [List.map_cons, List.filterMap_cons, ih, List.filter_cons]
    cases hl : l.1.1.is .breakpoint with
    | true => simp [breakpointAt?, hl]
    | false => simp [breakpointAt?, hl]

theorem of_breakpointAt?_eq_some {l : SourcedLine} {place : (Nat × Nat) × Text}
    (h : breakpointAt? l = some place) : place.2 = l.2 := by
  simp only [breakpointAt?, Option.bind_eq_some_iff, Option.ite_none_right_eq_some,
    Option.some.injEq] at h
  obtain ⟨source, -, -, rfl⟩ := h
  rfl

section Lines

variable {opts : Options} {heap : Heap} {window : Int}
  (hmake : Catalog.make window Idiom.all Assignment.rules = .ok opts.catalog)
include hmake

theorem BlockPart.IsOf.filterMap_lines {b : Block} {s t : Session} {part : BlockPart}
    (h : part.IsOf opts heap b s t) (k : Nat) :
    t.breakpoints = s.breakpoints + (b.breakpoints k).length ∧
    (part.lines k b).filterMap breakpointAt? =
      breakpointLines (s.breakpoints + 1) (b.breakpoints k) := by
  obtain ⟨u, v, hsymbols, -, hall, rfl⟩ := h
  obtain ⟨pool, rfl⟩ := of_symbolTexts_eq_ok hsymbols
  obtain ⟨htakes, -⟩ := Catalog.takes_of_selectAll hmake hall
  obtain ⟨hcount, hlines⟩ := htakes.filter_emitted hmake rfl 0
  refine ⟨?_, ?_⟩
  · rw [Block.breakpoints, List.length_map, length_filter_zipIdx]
    exact hcount
  · rw [BlockPart.lines, List.filterMap_append, List.filterMap_append, filterMap_framed,
      filterMap_framed, filterMap_emitted, hlines, Block.breakpoints, breakpointLines_map,
      List.nil_append, List.append_nil]

theorem Parts.filterMap_lines {bs : List Block} {s t : Session} {parts : List BlockPart}
    (h : Parts opts heap bs s parts t) (k : Nat) :
    (partsLines k bs parts).filterMap breakpointAt? =
      breakpointLines (s.breakpoints + 1) ((bs.zipIdx k).flatMap fun b => b.1.breakpoints b.2) := by
  induction h generalizing k with
  | nil => rfl
  | @cons b bs s t u part parts hpart _ ih =>
    obtain ⟨hcount, hlines⟩ := hpart.filterMap_lines hmake k
    rw [partsLines, List.filterMap_append, hlines, ih, List.zipIdx_cons, List.flatMap_cons,
      breakpointLines_append, hcount, Nat.add_right_comm]

theorem Made.IsOf.filterMap_lines {p : Program} {s u : Session} {m : Made}
    (h : m.IsOf opts p heap s u) :
    (m.lines opts).filterMap breakpointAt? = breakpointLines 1 p.breakpoints := by
  obtain ⟨pool, -, hparts⟩ := h.exists_pool
  rw [Made.lines, List.filterMap_append, List.filterMap_append, filterMap_framed, filterMap_framed,
    hparts.filterMap_lines hmake, List.append_nil, List.nil_append,
    ← (Program.rename_eq_ok_iff.mp h.rename).2.breakpoints]
  rfl

/-- A breakpoint is no index step, so that cancelling those leaves the breakpoints as they are. -/
theorem Made.IsOf.filterMap_cancelSourced {p : Program} {s u : Session} {m : Made}
    (h : m.IsOf opts p heap s u) :
    (cancelSourced (m.lines opts)).filterMap breakpointAt? = breakpointLines 1 p.breakpoints := by
  rw [Stack6502.filterMap_cancelSourced, h.filterMap_lines hmake]
  intro l hl hstep
  cases hplace : breakpointAt? l with
  | none => rfl
  | some place =>
    have hmem : place ∈ breakpointLines 1 p.breakpoints := by
      rw [← h.filterMap_lines hmake]
      exact List.mem_filterMap.mpr ⟨l, hl, hplace⟩
    obtain ⟨n, hn⟩ := exists_of_mem_breakpointLines hmem
    rw [← of_breakpointAt?_eq_some hplace, hn, ofLine?_breakpointLine] at hstep
    cases hstep

end Lines

end Assembly

/-! ### What went before -/

open Assembly in
/-- What a session has been through is of no account to a generation. The text or fault is that of
a new session, the tally grows by that of a new session, and the breakpoints are numbered from one
on in the order of the program. -/
theorem Program.assemble_ignores_history (opts : Options) (history : List Session.Step)
    (p : Program) (heap : Heap) :
    let s := Session.after opts history
    let run := (p.assemble opts heap).run.run s
    let fresh := (p.assemble opts heap).run.run .start
    run.1 = fresh.1 ∧
    (∀ name, run.2.tally.count name = s.tally.count name + fresh.2.tally.count name) ∧
    ∀ window text, Catalog.make window Idiom.all Assignment.rules = .ok opts.catalog →
      run.1 = .ok text → ∃ m : Made, m.IsOf opts p heap s run.2 ∧
        text.lines = (cancelSourced (m.lines opts)).map (·.2) ∧
        (cancelSourced (m.lines opts)).filterMap breakpointAt? =
          breakpointLines 1 p.breakpoints := by
  intro s run fresh
  obtain ⟨hsame, hcount⟩ := p.assemble_run_start opts heap s
  refine ⟨hsame, hcount, fun window text hmake htext => ?_⟩
  have hrun : (p.assemble opts heap).run.run s = (.ok text, run.2) := Prod.ext htext rfl
  obtain ⟨m, hm, hpeephole⟩ := of_assemble_eq_ok hrun
  refine ⟨m, hm, ?_, hm.filterMap_cancelSourced hmake⟩
  rw [hpeephole, hm.lines_peephole hmake]

namespace Pausing

open Assembly

def pause : Instr := { op := .known .breakpoint }

def program : Program where
  name := "t"
  launcher := .known .raw
  load := 0
  blocks :=
    [{ name := "main", short := "main", address := 0, decls := [], code := [pause] },
     { name := "sub", short := "sub", address := 0, decls := []
       code := [{ op := .known .nop }, pause] }]

def clash : Program := { program with blocks := program.blocks ++ program.blocks }

/-- One generation that succeeds, a selection that counts one more breakpoint, and a generation that
fails. -/
def history : List Session.Step :=
  [.generate program [], .select .standard [pause], .generate clash []]

def plain : Fragment := ⟨"fallback NOP", [[Asm.op .nop]], 1, false⟩

def made : Made where
  renamed := program
  target := ⟨.known .raw, rawLoad⟩
  parts := [⟨[], [], [breakpointFragment 1]⟩, ⟨[], [], [plain, breakpointFragment 2]⟩]
  literals := []

theorem made_isOf (s : Session) : ∃ tally, made.IsOf .standard program [] s ⟨.empty, 2, tally⟩ := by
  have hmain : Catalog.standard.Takes (some "main") [pause] ⟨.empty, 0, s.tally⟩
      [breakpointFragment 1] [] ⟨.empty, 1, s.tally⟩ := .cons rfl (.nil _ _)
  have hsub (tally : Tally) : Catalog.standard.Takes (some "sub") [{ op := .known .nop }, pause]
      ⟨.empty, 1, tally⟩ [plain, breakpointFragment 2] [] ⟨.empty, 2, tally⟩ :=
    .cons rfl (.cons rfl (.nil _ _))
  have hselect := @Catalog.Takes.selectAll_run _ Catalog.isSound_standard (by decide)
  have hparts : Parts .standard [] program.blocks ⟨.empty, 0, s.tally⟩ made.parts _ :=
    .cons ⟨_, _, rfl, variableTexts_stored (by decide) _ _, hselect hmain rfl, rfl⟩
      (.cons ⟨_, _, rfl, variableTexts_stored (by decide) _ _, hselect (hsub _) rfl, rfl⟩ (.nil _))
  exact ⟨_, by decide, by decide, ⟨_, rfl, hparts⟩, rfl⟩

theorem breakpoints_after : (Session.after .standard history).breakpoints = 3 := by
  obtain ⟨tally, h⟩ := made_isOf .start
  have hclash : clash.rename = .error (.shared "main" "main" "main") := by decide
  simp only [Session.after, history, List.foldl_cons, List.foldl_nil, Session.step, h.assemble_run,
    assemble_run_of_rename hclash]
  rfl

end Pausing

open Assembly Pausing in
theorem Program.assemble_ignores_history_pausing :
    let s := Session.after .standard history
    s.breakpoints = 3 ∧ ∃ text u, (program.assemble .standard []).run.run s = (.ok text, u) ∧
      ∃ m : Made, text.lines = (cancelSourced (m.lines .standard)).map (·.2) ∧
        (cancelSourced (m.lines .standard)).filterMap breakpointAt? =
          [((0, 0), Text.ofString "_tg_breakpoint_1\tnop\n"),
           ((1, 1), Text.ofString "_tg_breakpoint_2\tnop\n")] := by
  intro s
  obtain ⟨tally, h⟩ := made_isOf s
  obtain ⟨-, -, hlines⟩ := Program.assemble_ignores_history .standard history program []
  obtain ⟨m, -, htext, hpauses⟩ := hlines Catalog.defaultWindow _ (Catalog.make_all _)
    (congrArg (·.1) h.assemble_run)
  exact ⟨breakpoints_after, _, _, h.assemble_run, m, htext, hpauses⟩

end Stack6502
