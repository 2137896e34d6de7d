import Mathlib.Data.List.Flatten
import Mathlib.Data.List.Nodup
import Stack6502.Proofs.CancelledRuns

/-!
# Assembly text stays together

Assembly text is put into the code as it is and keeps its place: the texts of a program stand in the
generated text one after another, with nothing inside them. Only index steps are cancelled within
them like anywhere else, also together with a line before or after the text.
-/
namespace Stack6502

def Instr.verbatim? (x : Instr) : Option Text :=
  if x.is .inlineAssembly && !x.sym.isEmpty then some x.sym else none

/-- The assembly texts of a block, each with the number of the block and the place in its code. -/
def Block.verbatims (k : Nat) (b : Block) : List ((Nat × Nat) × Text) :=
  b.code.zipIdx.filterMap fun x => x.1.verbatim?.map fun t => ((k, x.2), t)

def Program.verbatims (p : Program) : List ((Nat × Nat) × Text) :=
  p.blocks.zipIdx.flatMap fun b => b.1.verbatims b.2

/-- The text can be cut into parts of which some are the texts `ts`, in their order. -/
def Text.HoldsInOrder (t : Text) (ts : List Text) : Prop :=
  ∃ parts : List Text, ts.Sublist parts ∧ parts.flatten = t

/-! ### Lines that stand together -/

/-- Of lines some with a key, those with the same key stand together, in the order of the keys. -/
inductive Gathers {κ : Type} : List (κ × List Text) → List (Option κ × Text) → Prop
  | nil : Gathers [] []
  | other {vs : List (κ × List Text)} {ls : List (Option κ × Text)} (line : Text)
    (h : Gathers vs ls) : Gathers vs ((none, line) :: ls)
  | part {vs : List (κ × List Text)} {ls : List (Option κ × Text)} (key : κ) (own : List Text)
    (h : Gathers vs ls) : Gathers ((key, own) :: vs) (own.map (some key, ·) ++ ls)

namespace Gathers

variable {κ : Type} {vs ws : List (κ × List Text)} {ls ms : List (Option κ × Text)}

theorem append (h : Gathers vs ls) (hms : Gathers ws ms) : Gathers (vs ++ ws) (ls ++ ms) := by
  induction h with
  | nil => exact hms
  | other line _ ih => exact ih.other line
  | part key own _ ih =>
    rw [List.append_assoc]
    exact ih.part key own

theorem others (h : ∀ l ∈ ls, l.1 = none) : Gathers [] ls := by
  induction ls with
  | nil => exact .nil
  | cons l ls ih =>
    obtain ⟨hl, hls⟩ := List.forall_mem_cons.mp h
    obtain ⟨key, line⟩ := l
    cases hl
    exact (ih hls).other line

/-- Some of the lines stand together too. -/
theorem sublist (h : Gathers vs ls) (hms : ms.Sublist ls) :
    ∃ ws, ws.map (·.1) = vs.map (·.1) ∧ Gathers ws ms := by
  induction h generalizing ms with
  | nil =>
    rw [List.sublist_nil] at hms
    exact ⟨[], rfl, hms ▸ .nil⟩
  | other line _ ih =>
    cases hms with
    | cons _ hms => exact ih hms
    | cons_cons _ hms =>
      obtain ⟨ws, hkeys, hws⟩ := ih hms
      exact ⟨ws, hkeys, hws.other line⟩
  | part key own _ ih =>
    obtain ⟨front, back, rfl, hfront, hback⟩ := List.sublist_append_iff.mp hms
    obtain ⟨kept, -, rfl⟩ := List.sublist_map_iff.mp hfront
    obtain ⟨ws, hkeys, hws⟩ := ih hback
    exact ⟨(key, kept) :: ws, by simp [hkeys], hws.part key kept⟩

theorem holdsInOrder (h : Gathers vs ls) :
    Text.HoldsInOrder (ls.map (·.2)).flatten (vs.map (·.2.flatten)) := by
  induction h with
  | nil => exact ⟨[], .refl _, rfl⟩
  | other line _ ih =>
    obtain ⟨parts, hsub, hflatten⟩ := ih
    exact ⟨line :: parts, hsub.cons line, by simp [hflatten]⟩
  | part key own _ ih =>
    obtain ⟨parts, hsub, hflatten⟩ := ih
    refine ⟨own.flatten :: parts, hsub.cons_cons _, ?_⟩
    simp [hflatten, Function.comp_def]

variable [DecidableEq κ]

theorem filter_of_notMem (h : Gathers vs ls) {key : κ} (hkey : key ∉ vs.map (·.1)) :
    ls.filter (·.1 = some key) = [] := by
  induction h with
  | nil => rfl
  | other line _ ih => simpa using ih hkey
  | part other own _ ih =>
    simp only [List.map_cons, List.mem_cons, not_or] at hkey
    rw [List.filter_append, ih hkey.2, List.append_nil, List.filter_eq_nil_iff]
    simp [Ne.symm hkey.1]

/-- The lines with a key are those gathered for it. -/
theorem map_filter (h : Gathers vs ls) (hkeys : (vs.map (·.1)).Nodup) {v : κ × List Text}
    (hv : v ∈ vs) : (ls.filter (·.1 = some v.1)).map (·.2) = v.2 := by
  induction h with
  | nil => cases hv
  | other line _ ih => simpa using ih hkeys hv
  | part key own hrest ih =>
    obtain ⟨hkey, hkeys'⟩ := List.nodup_cons.mp hkeys
    rcases List.mem_cons.mp hv with rfl | hmem
    · rw [List.filter_append, hrest.filter_of_notMem hkey, List.append_nil, List.filter_map]
      simp [Function.comp_def]
    · have hne : key ≠ v.1 := by
        rintro rfl
        exact hkey (List.mem_map.mpr ⟨v, hmem, rfl⟩)
      rw [List.filter_append, List.map_append, ih hkeys' hmem, List.filter_map]
      simp [Function.comp_def, hne]

end Gathers

/-! ### Assembly texts and their places -/

theorem Instr.Renames.verbatim? {x y : Instr} {short : Text} (h : x.Renames short y) :
    y.verbatim? = x.verbatim? := by
  have hop : y.is .inlineAssembly = x.is .inlineAssembly := by rw [Instr.is, Instr.is, h.op]
  unfold Instr.verbatim?
  cases hx : x.is .inlineAssembly with
  | false => simp [hop, hx]
  | true => simp [hop, hx, (h.verbatim (.inr hx)).1]

theorem Block.Renames.verbatims {b c : Block} (h : b.Renames c) :
    (fun k => c.verbatims k) = fun k => b.verbatims k := by
  have hcode : c.code.map (·.verbatim?) = b.code.map (·.verbatim?) :=
    h.map_code fun x y hxy => hxy.verbatim?
  have htexts (b : Block) (k : Nat) : b.verbatims k =
      (b.code.map (·.verbatim?)).zipIdx.filterMap fun x => x.1.map fun t => ((k, x.2), t) := by
    rw [List.zipIdx_map, List.filterMap_map]
    rfl
  funext k
  rw [htexts, htexts, hcode]

theorem Program.Renames.verbatims {p q : Program} (h : p.Renames q) :
    q.verbatims = p.verbatims :=
  h.flatMap_blocks fun _ _ => Block.Renames.verbatims

theorem Block.pairwise_verbatims (k : Nat) (b : Block) :
    (b.verbatims k).Pairwise fun v w => v.1 ≠ w.1 := by
  rw [Block.verbatims, List.pairwise_filterMap]
  refine (pairwise_zipIdx b.code).imp ?_
  intro x y hlt v hv w hw
  obtain ⟨t, -, rfl⟩ := Option.map_eq_some_iff.mp hv
  obtain ⟨t', -, rfl⟩ := Option.map_eq_some_iff.mp hw
  simp only [ne_eq, Prod.mk.injEq, true_and]
  omega

/-- No two assembly texts are at the same place. -/
theorem Program.nodup_verbatims (p : Program) : (p.verbatims.map (·.1)).Nodup := by
  rw [List.Nodup, List.pairwise_map, Program.verbatims, List.pairwise_flatMap]
  refine ⟨fun b _ => b.1.pairwise_verbatims b.2, (pairwise_zipIdx p.blocks).imp ?_⟩
  intro b c hlt v hv w hw heq
  obtain ⟨x, -, hx⟩ := List.mem_filterMap.mp hv
  obtain ⟨y, -, hy⟩ := List.mem_filterMap.mp hw
  obtain ⟨t, -, rfl⟩ := Option.map_eq_some_iff.mp hx
  obtain ⟨t', -, rfl⟩ := Option.map_eq_some_iff.mp hy
  simp only [Prod.mk.injEq] at heq
  omega

theorem Instr.of_verbatim?_eq_some {x : Instr} {t : Text} (h : x.verbatim? = some t) :
    x.op = .known .inlineAssembly ∧ x.sym = t ∧ t ≠ [] := by
  obtain ⟨hx, ⟨⟩⟩ := Option.ite_none_right_eq_some.mp h
  obtain ⟨hop, hne⟩ := Bool.and_eq_true_iff.mp hx
  exact ⟨beq_iff_eq.mp hop, rfl, by simpa using hne⟩

theorem LowersTo.output_verbatim {scope : Option Text} {x : Instr} {f : Fragment} {t : Text}
    (h : LowersTo scope [x] f) (hx : x.verbatim? = some t) : f.output = t ++ [Text.newline] := by
  obtain ⟨hop, rfl, hne⟩ := Instr.of_verbatim?_eq_some hx
  obtain ⟨_, _, _, hanswer, rfl⟩ := h.of_op hop rfl rfl
  cases hanswer
  have htext : Code.text [[.verbatim x.sym]] = x.sym := by
    simp [Code.text, Code.groupText, Line.text, Text.join, hne]
  simp [Fragment.output, htext, hne]

/-- Some of the elements of a list make up all of it only if they are all of them. -/
theorem eq_of_flatten_map {α β : Type} {l m : List α} {f : α → List β} (h : l.Sublist m)
    (hne : ∀ a ∈ m, f a ≠ []) (heq : (l.map f).flatten = (m.map f).flatten) : l = m := by
  induction h with
  | slnil => rfl
  | @cons l m a hsub _ =>
    have hle := ((hsub.map f).flatten).length_le
    have hpos := List.length_pos_iff.mpr (hne a (List.mem_cons_self ..))
    rw [heq, List.map_cons, List.flatten_cons, List.length_append] at hle
    omega
  | @cons_cons l m a hsub ih =>
    simp only [List.map_cons, List.flatten_cons] at heq
    rw [ih (List.forall_mem_cons.mp hne).2 (List.append_cancel_left heq)]

namespace Assembly

def verbatimAt? (l : SourcedLine) : Option (Nat × Nat) :=
  l.1.bind fun source => source.1.verbatim?.map fun _ => source.2

def keyed (l : SourcedLine) : Option (Nat × Nat) × Text := (verbatimAt? l, l.2)

def linesAt (place : Nat × Nat) (ls : List SourcedLine) : List Text :=
  (ls.filter (verbatimAt? · = some place)).map (·.2)

def textLines (v : (Nat × Nat) × Text) : (Nat × Nat) × List Text :=
  (v.1, Text.lines (v.2 ++ [Text.newline]))

/-- Assembly text in a piece is all of it. -/
theorem gathers_piece {scope : Option Text} {x : Instr} {piece : List Instr} {f : Fragment}
    (h : LowersTo scope (x :: piece) f) (k n : Nat) :
    Gathers (((x :: piece).zipIdx n).filterMap fun y =>
        y.1.verbatim?.map fun t => textLines ((k, y.2), t))
      (f.output.lines.map fun line => keyed (some (x, k, n), line)) := by
  have halone : ∀ y ∈ x :: piece, ∀ t, y.verbatim? = some t → x :: piece = [y] := by
    intro y hy t ht
    obtain ⟨hop, -, -⟩ := Instr.of_verbatim?_eq_some ht
    exact (h.exists_fallback hy (by rw [hop]; rfl)).1
  cases hx : x.verbatim? with
  | some t =>
    obtain ⟨-, rfl⟩ := List.cons.inj (halone x (List.mem_cons_self ..) t hx)
    have hpart := Gathers.nil.part (k, n) (Text.lines (t ++ [Text.newline]))
    simpa [hx, textLines, keyed, verbatimAt?, h.output_verbatim hx] using hpart
  | none =>
    have hnone : ∀ y ∈ x :: piece, y.verbatim? = none := by
      intro y hy
      cases ht : y.verbatim? with
      | none => rfl
      | some t =>
        obtain ⟨rfl, -⟩ := List.cons.inj (halone y hy t ht)
        rw [hx] at ht
        cases ht
    have hkeys : (((x :: piece).zipIdx n).filterMap fun y =>
        y.1.verbatim?.map fun t => textLines ((k, y.2), t)) = [] := by
      rw [List.filterMap_eq_nil_iff]
      intro y hy
      rw [hnone y.1 (List.fst_mem_of_mem_zipIdx hy)]
      rfl
    rw [hkeys]
    apply Gathers.others
    simp [keyed, verbatimAt?, hx]

theorem gathers_emitted {scope : Option Text} {pieces : List (List Instr)} {fs : List Fragment}
    (h : List.Forall₂ (LowersTo scope) pieces fs) (k n : Nat) :
    Gathers ((pieces.flatten.zipIdx n).filterMap fun y =>
        y.1.verbatim?.map fun t => textLines ((k, y.2), t))
      ((emitted n pieces.flatten fs).map fun l => keyed (some (l.1.1, k, l.1.2), l.2)) := by
  induction h generalizing n with
  | nil => exact .nil
  | @cons piece f pieces fs hpiece _ ih =>
    obtain ⟨x, piece, rfl⟩ := List.exists_cons_of_ne_nil hpiece.ne_nil
    rw [List.flatten_cons, List.zipIdx_append, List.filterMap_append, hpiece.emitted_append,
      List.map_append, List.map_map]
    exact (gathers_piece hpiece k n).append (ih _)

theorem map_filter_keyed (place : Nat × Nat) (ls : List SourcedLine) :
    ((ls.map keyed).filter (·.1 = some place)).map (·.2) = linesAt place ls := by
  rw [linesAt, List.filter_map, List.map_map]
  rfl

theorem map_keyed (ls : List SourcedLine) : (ls.map keyed).map (·.2) = ls.map (·.2) := by
  rw [List.map_map]
  rfl

theorem nodup_textLines (p : Program) : ((p.verbatims.map textLines).map (·.1)).Nodup := by
  rw [List.map_map]
  exact p.nodup_verbatims

theorem gathers_framed (t : Text) : Gathers [] ((framed t).map keyed) :=
  .others (by simp [framed, keyed, verbatimAt?])

section Lines

variable {opts : Options} {heap : Heap} {window : Int}
  (hmake : Catalog.make window Idiom.all Assignment.rules = .ok opts.catalog)
include hmake

theorem BlockPart.IsOf.gathers {b : Block} {s t : Session} {part : BlockPart}
    (h : part.IsOf opts heap b s t) (k : Nat) :
    Gathers ((b.verbatims k).map textLines) ((part.lines k b).map keyed) := by
  obtain ⟨u, v, -, -, hall, -⟩ := h
  obtain ⟨-, pieces, hpieces, hcode⟩ := Catalog.takes_of_selectAll hmake hall
  have hemitted := gathers_emitted hpieces k 0
  rw [← hcode] at hemitted
  have hlines := ((gathers_framed (part.front b)).append hemitted).append
    (gathers_framed "\n\t.pend\n\n")
  simpa [Block.verbatims, BlockPart.lines, List.map_filterMap, Function.comp_def] using hlines

theorem Parts.gathers {bs : List Block} {s t : Session} {parts : List BlockPart}
    (h : Parts opts heap bs s parts t) (k : Nat) :
    Gathers (((bs.zipIdx k).flatMap fun b => b.1.verbatims b.2).map textLines)
      ((partsLines k bs parts).map keyed) := by
  induction h generalizing k with
  | nil => exact .nil
  | cons hpart _ ih =>
    rw [partsLines, List.zipIdx_cons, List.flatMap_cons, List.map_append, List.map_append]
    exact (hpart.gathers hmake k).append (ih (k + 1))

/-- The lines of each assembly text stand together, in the order of the program. -/
theorem Made.IsOf.gathers {p : Program} {s u : Session} {m : Made} (h : m.IsOf opts p heap s u) :
    Gathers (p.verbatims.map textLines) ((m.lines opts).map keyed) := by
  obtain ⟨t, -, hparts⟩ := h.parts
  have hlines := ((gathers_framed (header opts m.renamed.name m.target)).append
    (hparts.gathers hmake 0)).append (gathers_framed m.literals)
  rw [← (Program.rename_eq_ok_iff.mp h.rename).2.verbatims]
  simpa [Program.verbatims, Made.lines] using hlines

/-- The lines at the place of an assembly text are the text. -/
theorem Made.IsOf.linesAt_lines {p : Program} {s u : Session} {m : Made}
    (h : m.IsOf opts p heap s u) {v : (Nat × Nat) × Text} (hv : v ∈ p.verbatims) :
    linesAt v.1 (m.lines opts) = Text.lines (v.2 ++ [Text.newline]) := by
  have hmem : textLines v ∈ p.verbatims.map textLines := List.mem_map_of_mem hv
  have hown := (h.gathers hmake).map_filter (nodup_textLines p) hmem
  rwa [map_filter_keyed] at hown

theorem Made.IsOf.text_holds {p : Program} {s u : Session} {m : Made}
    (h : m.IsOf opts p heap s u) :
    (m.text opts).HoldsInOrder (p.verbatims.map (·.2 ++ [Text.newline])) := by
  have hholds := (h.gathers hmake).holdsInOrder
  rw [map_keyed, h.map_lines hmake, Text.flatten_lines] at hholds
  simpa [textLines, Text.flatten_lines, Function.comp_def] using hholds

/-- What is not cancelled of the assembly texts stands together too. -/
theorem Made.IsOf.peephole_holds {p : Program} {s u : Session} {m : Made}
    (h : m.IsOf opts p heap s u) : (peephole (m.text opts)).HoldsInOrder
      (p.verbatims.map fun v => (linesAt v.1 (cancelSourced (m.lines opts))).flatten) := by
  obtain ⟨ws, hkeys, hws⟩ :=
    (h.gathers hmake).sublist ((cancelSourced_sublist (m.lines opts)).map keyed)
  have hnodup : (ws.map (·.1)).Nodup := hkeys ▸ nodup_textLines p
  have hown : ws.map (·.2.flatten) =
      (ws.map (·.1)).map fun place => (linesAt place (cancelSourced (m.lines opts))).flatten := by
    rw [List.map_map]
    refine List.map_congr_left fun w hw => ?_
    rw [← hws.map_filter hnodup hw, map_filter_keyed, Function.comp_apply]
  have hholds := hws.holdsInOrder
  rw [map_keyed, ← h.lines_peephole hmake, Text.flatten_lines, hown, hkeys] at hholds
  simpa [textLines, Function.comp_def] using hholds

end Lines

/-- Every line of the assembly text at a place remains: in a run of lines each of which cancels the
next, a line of the text may only be the last one, and that of an odd number. -/
def Made.Keeps (opts : Options) (m : Made) (place : Nat × Nat) : Prop :=
  ∀ run ∈ stepRuns (m.lines opts), (∃ l ∈ run, verbatimAt? l = some place) →
    run.length % 2 = 1 ∧ ∀ l ∈ run.dropLast, verbatimAt? l ≠ some place

theorem Made.keeps_iff {opts : Options} {m : Made} {place : Nat × Nat} :
    m.Keeps opts place ↔ (cancelSourced (m.lines opts)).filter (verbatimAt? · = some place) =
      (m.lines opts).filter (verbatimAt? · = some place) := by
  rw [filter_cancelSourced_eq_iff]
  simp [Made.Keeps]

section Kept

variable {opts : Options} {heap : Heap} {window : Int}
  (hmake : Catalog.make window Idiom.all Assignment.rules = .ok opts.catalog)
  {p : Program} {s u : Session} {m : Made} (h : m.IsOf opts p heap s u)
  {v : (Nat × Nat) × Text} (hv : v ∈ p.verbatims)
include hmake h hv

theorem Made.IsOf.flatten_linesAt_iff :
    (linesAt v.1 (cancelSourced (m.lines opts))).flatten = v.2 ++ [Text.newline] ↔
      m.Keeps opts v.1 := by
  have hlines := h.linesAt_lines hmake hv
  have hwhole : (linesAt v.1 (m.lines opts)).flatten = v.2 ++ [Text.newline] := by
    rw [hlines, Text.flatten_lines]
  rw [← hwhole, Made.keeps_iff]
  constructor
  · refine eq_of_flatten_map ((cancelSourced_sublist _).filter _) fun l hl => ?_
    have hmem : l.2 ∈ Text.lines (v.2 ++ [Text.newline]) := by
      rw [← hlines]
      exact List.mem_map_of_mem hl
    obtain ⟨t, -, ht⟩ := Text.isLine_of_mem_lines (.inr ⟨v.2, rfl⟩) l.2 hmem
    rw [ht]
    simp
  · intro heq
    rw [linesAt, heq, linesAt]

/-- Assembly text without index steps is kept. -/
theorem Made.IsOf.keeps_of_forall
    (hsteps : ∀ l ∈ Text.lines (v.2 ++ [Text.newline]), IndexStep.ofLine? l = none) :
    m.Keeps opts v.1 := by
  rw [Made.keeps_iff, ← List.filterMap_eq_filter, Stack6502.filterMap_cancelSourced]
  intro l hl hstep
  rw [Option.guard_eq_none_iff, decide_eq_false_iff_not]
  intro hplace
  have hmem : l.2 ∈ Text.lines (v.2 ++ [Text.newline]) := by
    rw [← h.linesAt_lines hmake hv]
    exact List.mem_map_of_mem (List.mem_filter.mpr ⟨hl, decide_eq_true hplace⟩)
  rw [hsteps l.2 hmem] at hstep
  cases hstep

end Kept

end Assembly

open Assembly in
/-- The assembly texts of a program stand in its text one after another, each as it is except for
index steps that are cancelled. A text is whole exactly if none of its lines is cancelled, and so
are all texts that take no index step. -/
theorem Program.verbatims_held {opts : Options} {heap : Heap} {window : Int}
    (hmake : Catalog.make window Idiom.all Assignment.rules = .ok opts.catalog) {p : Program}
    {s u : Session} {text : Text} (hrun : (p.assemble opts heap).run.run s = (.ok text, u)) :
    ∃ m : Made, m.IsOf opts p heap s u ∧ text = peephole (m.text opts) ∧
      (m.lines opts).map (·.2) = (m.text opts).lines ∧
      text.lines = (cancelSourced (m.lines opts)).map (·.2) ∧
      (m.text opts).HoldsInOrder (p.verbatims.map (·.2 ++ [Text.newline])) ∧
      text.HoldsInOrder
        (p.verbatims.map fun v => (linesAt v.1 (cancelSourced (m.lines opts))).flatten) ∧
      ∀ v ∈ p.verbatims,
        ((linesAt v.1 (cancelSourced (m.lines opts))).flatten = v.2 ++ [Text.newline] ↔
          m.Keeps opts v.1) ∧
        ((∀ l ∈ Text.lines (v.2 ++ [Text.newline]), IndexStep.ofLine? l = none) →
          m.Keeps opts v.1) := by
  obtain ⟨m, hm, htext⟩ := of_assemble_eq_ok hrun
  have hlines := hm.lines_peephole hmake
  have hholds := hm.peephole_holds hmake
  rw [← htext] at hlines hholds
  exact ⟨m, hm, htext, hm.map_lines hmake, hlines, hm.text_holds hmake, hholds,
    fun v hv => ⟨hm.flatten_linesAt_iff hmake hv, hm.keeps_of_forall hmake hv⟩⟩

namespace Stepping

open Assembly

def nop : Instr := { op := .known .nop }

def block (t : Text) : Block where
  name := "main"
  short := "main"
  address := 0
  decls := []
  code := [nop, { op := .known .inlineAssembly, sym := t }, nop]

def program (t : Text) : Program where
  name := "t"
  launcher := .known .raw
  load := 0
  blocks := [block t]

def plain : Fragment := ⟨"fallback NOP", [[Asm.op .nop]], 1, false⟩

def made (t : Text) : Made where
  renamed := program t
  target := ⟨.known .raw, rawLoad⟩
  parts := [⟨[], [], [plain, ⟨"fallback INLINE_ASSEMBLY", [[.verbatim t]], 1, true⟩, plain]⟩]
  literals := []

theorem made_isOf {t : Text}
    (h : Catalog.standard.Takes (some "main") (block t).code .start
      [plain, ⟨"fallback INLINE_ASSEMBLY", [[.verbatim t]], 1, true⟩, plain] [] .start)
    (hrename : (program t).rename = .ok (program t)) :
    ∃ u, (made t).IsOf .standard (program t) [] .start u := by
  have hselect := h.selectAll_run Catalog.isSound_standard (by decide) rfl
  have hparts : Parts .standard [] (program t).blocks .start (made t).parts _ :=
    .cons ⟨_, _, rfl, variableTexts_stored (by simp [block]) _ _, hselect, rfl⟩ (.nil _)
  exact ⟨_, hrename, rfl, ⟨_, rfl, hparts⟩, rfl⟩

/-- A step that has a label, which is never cancelled. -/
def loop : Text := "loop\tinx\n\tbne  loop"

theorem loop_isOf : ∃ u, (made loop).IsOf .standard (program loop) [] .start u :=
  made_isOf (.cons rfl (.cons rfl (.cons rfl (.nil _ _)))) (by decide)

/-- A step up and down again. -/
def idle : Text := "\tinx\n\tdex"

theorem idle_isOf : ∃ u, (made idle).IsOf .standard (program idle) [] .start u :=
  made_isOf (.cons rfl (.cons rfl (.cons rfl (.nil _ _)))) (by decide)

end Stepping

open Assembly Stepping in
theorem Program.verbatims_held_loop : (program loop).verbatims = [((0, 1), loop)] ∧
    ∃ text u, ((program loop).assemble .standard []).run.run .start = (.ok text, u) ∧
      text.HoldsInOrder [loop ++ [Text.newline]] := by
  have hmake : Catalog.make Catalog.defaultWindow Idiom.all Assignment.rules =
      .ok Options.standard.catalog := Catalog.make_all _
  have hverbatims : (program loop).verbatims = [((0, 1), loop)] := rfl
  obtain ⟨u, hmade⟩ := loop_isOf
  obtain ⟨m, -, -, -, -, -, hholds, hkeeps⟩ := Program.verbatims_held hmake hmade.assemble_run
  obtain ⟨hwhole, hsteps⟩ := hkeeps ((0, 1), loop) (by rw [hverbatims]; exact .head _)
  refine ⟨hverbatims, _, u, hmade.assemble_run, ?_⟩
  rw [hverbatims, List.map_singleton, hwhole.mpr (hsteps (by decide))] at hholds
  exact hholds

open Assembly Stepping in
/-- Steps that undo each other are taken out of assembly text. -/
theorem Program.verbatim_cancelled : (program idle).verbatims = [((0, 1), idle)] ∧
    (∃ u, ((program idle).assemble .standard []).run.run .start =
      (.ok (peephole ((made idle).text .standard)), u)) ∧
    ¬ idle ++ [Text.newline] <:+: peephole ((made idle).text .standard) := by
  obtain ⟨u, hmade⟩ := idle_isOf
  exact ⟨rfl, ⟨u, hmade.assemble_run⟩, by decide +kernel⟩

end Stack6502
