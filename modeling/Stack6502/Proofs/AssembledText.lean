import Stack6502.Proofs.FloatLiterals
import Stack6502.Proofs.ForwardLabels
import Stack6502.Proofs.MarkedLines
import Stack6502.Proofs.SessionHistory

/-!
# What the text of a program is made of

A generation that succeeds has put its text together from a header, the parts of each block and the
literals, and at last has cancelled index steps. All of it is whole lines, so that each line that
remains comes from an instruction at some place of the program or from the frame around the code.
-/
namespace Stack6502

namespace Assembly

/-! ### The parts of a text -/

structure BlockPart where
  symbols : Text
  storage : Text
  fragments : List Fragment

def BlockPart.front (b : Block) (part : BlockPart) : Text :=
  blockStart b ++ "\n; memdefs and kernel subroutines\n" ++ part.symbols ++
    "\n; variables\n" ++ part.storage ++ "\n"

def BlockPart.text (b : Block) (part : BlockPart) : Text :=
  part.front b ++ part.fragments.flatMap Fragment.output ++ "\n\t.pend\n\n"

def BlockPart.IsOf (opts : Options) (heap : Heap) (b : Block) (s : Session) (part : BlockPart)
    (v : Session) : Prop :=
  ∃ t u, (symbolTexts b.decls).run.run s = (.ok part.symbols, t) ∧
    variableTexts opts.charsets heap b.stored = .ok part.storage ∧
    (opts.catalog.selectAll (some b.short) b.code).run t = (⟨part.fragments, [], none⟩, u) ∧
    v = u.counting part.fragments

inductive Parts (opts : Options) (heap : Heap) :
    List Block → Session → List BlockPart → Session → Prop
  | nil (s : Session) : Parts opts heap [] s [] s
  | cons {b : Block} {bs : List Block} {s t u : Session} {part : BlockPart}
    {parts : List BlockPart} (hpart : part.IsOf opts heap b s t)
    (hparts : Parts opts heap bs t parts u) : Parts opts heap (b :: bs) s (part :: parts) u

def partsText (bs : List Block) (parts : List BlockPart) : Text :=
  (List.zipWith BlockPart.text bs parts).flatten

/-- A symbol stands for the label of a literal, which may join the pool, or for an integer. -/
theorem of_symbolLine_eq_ok {d : Decl} {v : Value} {s t : Session} {line : Text}
    (h : (symbolLine d v).run.run s = (.ok line, t)) :
    ∃ value, line = "\t" ++ d.name ++ " = " ++ value ++ "\n" ∧
      (d.type = .known .float ∧
          (∃ pool, s.pool.add v.toDouble = (some value, pool) ∧ t = { s with pool }) ∨
        d.type ≠ .known .float ∧ (∃ n, v = .int n ∧ value = hex n) ∧ t = s) := by
  unfold symbolLine at h
  dsimp only at h
  split at h
  · rename_i v _ _ hfloat
    obtain ⟨label, u, hlabel, h⟩ := of_run_bind_eq_ok h
    cases hlabel
    cases hadd : s.pool.add v.toDouble with
    | mk label pool =>
      rw [hadd] at h
      cases label with
      | none => cases h
      | some value =>
        obtain ⟨rfl, rfl⟩ := of_pure_eq_ok h
        exact ⟨value, rfl, .inl ⟨hfloat, pool, rfl, rfl⟩⟩
  · cases h
  · rename_i n hne
    obtain ⟨rfl, rfl⟩ := of_pure_eq_ok h
    exact ⟨hex n, rfl, .inr ⟨hne, ⟨n, rfl, rfl⟩, rfl⟩⟩

theorem of_symbolTexts_eq_ok {ds : List Decl} {s t : Session} {text : Text}
    (h : (symbolTexts ds).run.run s = (.ok text, t)) : ∃ pool, t = { s with pool } := by
  induction ds generalizing s text with
  | nil =>
    cases h
    exact ⟨_, rfl⟩
  | cons d ds ih =>
    rw [symbolTexts] at h
    split at h
    · obtain ⟨line, u, hline, h⟩ := of_run_bind_eq_ok h
      obtain ⟨rest, v, hrest, h⟩ := of_run_bind_eq_ok h
      obtain ⟨rfl, rfl⟩ := of_pure_eq_ok h
      obtain ⟨pool, rfl⟩ := ih hrest
      obtain ⟨-, -, ⟨-, pool', -, rfl⟩ | ⟨-, -, rfl⟩⟩ := of_symbolLine_eq_ok hline
      · exact ⟨pool, rfl⟩
      · exact ⟨pool, rfl⟩
    · exact ih h

section Inversion

variable {opts : Options} {heap : Heap} {s u : Session} {text : Text}

theorem of_blockText_eq_ok {b : Block} (h : (blockText opts heap b).run.run s = (.ok text, u)) :
    ∃ part : BlockPart, part.IsOf opts heap b s u ∧ text = part.text b := by
  obtain ⟨symbols, t, hsymbols, h⟩ := of_run_bind_eq_ok h
  obtain ⟨storage, t', hstorage, h⟩ := of_run_bind_eq_ok h
  obtain ⟨code, u, hcode, h⟩ := of_run_bind_eq_ok h
  obtain ⟨fs, v, hall, rfl, rfl⟩ := of_codeText_eq_ok hcode
  obtain ⟨rfl, rfl⟩ := of_pure_eq_ok h
  obtain ⟨hstored, rfl⟩ := of_mapError_eq_ok hstorage
  exact ⟨⟨symbols, storage, fs⟩, ⟨_, _, adapt_eq_ok_iff.mp hsymbols, hstored, hall, rfl⟩, rfl⟩

theorem of_blockTexts_eq_ok {bs : List Block}
    (h : (blockTexts opts heap bs).run.run s = (.ok text, u)) :
    ∃ parts, Parts opts heap bs s parts u ∧ text = partsText bs parts := by
  induction bs generalizing s text with
  | nil =>
    cases h
    exact ⟨[], .nil _, rfl⟩
  | cons b bs ih =>
    obtain ⟨first, t, hfirst, h⟩ := of_run_bind_eq_ok h
    obtain ⟨rest, v, hrest, h⟩ := of_run_bind_eq_ok h
    obtain ⟨rfl, rfl⟩ := of_pure_eq_ok h
    obtain ⟨part, hpart, rfl⟩ := of_blockText_eq_ok hfirst
    obtain ⟨parts, hparts, rfl⟩ := ih hrest
    exact ⟨part :: parts, .cons hpart hparts, rfl⟩

/-- And a block with such a part has that text. -/
theorem BlockPart.IsOf.blockText_run {b : Block} {part : BlockPart}
    (h : part.IsOf opts heap b s u) :
    (blockText opts heap b).run.run s = (.ok (part.text b), u) := by
  obtain ⟨t, v, hsymbols, hstorage, hall, rfl⟩ := h
  have hcode := codeText_run hall
  rw [if_pos rfl] at hcode
  rw [blockText, run_bind_of_ok (adapt_eq_ok_iff.mpr hsymbols), hstorage]
  exact run_bind_of_ok hcode

theorem Parts.blockTexts_run {bs : List Block} {parts : List BlockPart}
    (h : Parts opts heap bs s parts u) :
    (blockTexts opts heap bs).run.run s = (.ok (partsText bs parts), u) := by
  induction h with
  | nil => rfl
  | cons hpart _ ih =>
    rw [blockTexts, run_bind_of_ok hpart.blockText_run, run_bind_of_ok ih]
    rfl

end Inversion

/-- A block whose declarations are all symbols needs no storage. -/
theorem variableTexts_stored {b : Block} (h : ∀ d ∈ b.decls, d.isSymbol) (sets : Charsets)
    (heap : Heap) : variableTexts sets heap b.stored = .ok [] := by
  have hnone : b.decls.filter (!·.isSymbol) = [] := by
    rw [List.filter_eq_nil_iff]
    intro d hd
    simp [h d hd]
  rw [Block.stored, hnone, List.mergeSort_nil]
  rfl

/-- What a generation makes of a program. -/
structure Made where
  renamed : Program
  target : Target
  parts : List BlockPart
  literals : Text

/-- The text before index steps are cancelled. -/
def Made.text (opts : Options) (m : Made) : Text :=
  header opts m.renamed.name m.target ++ partsText m.renamed.blocks m.parts ++ m.literals

/-- A generation in the session `s` makes `m` and leaves the session `u`. -/
structure Made.IsOf (opts : Options) (p : Program) (heap : Heap) (s : Session) (m : Made)
    (u : Session) : Prop where
  rename : p.rename = .ok m.renamed
  target : Assembly.target opts m.renamed = .ok m.target
  parts : ∃ t, (collectFloats m.renamed.blocks).run.run
      { s with pool := .empty, breakpoints := 0 } = (.ok ⟨⟩, t) ∧
    Parts opts heap m.renamed.blocks t m.parts u
  literals : poolText u.pool = .ok m.literals

/-- The blocks start with a pool of all literals and no breakpoints. -/
theorem Made.IsOf.exists_pool {opts : Options} {p : Program} {heap : Heap} {s u : Session}
    {m : Made} (h : m.IsOf opts p heap s u) : ∃ pool, pool.Holds p.literals ∧
      Parts opts heap m.renamed.blocks ⟨pool, 0, s.tally⟩ m.parts u := by
  obtain ⟨t, hfloats, hparts⟩ := h.parts
  obtain ⟨pool, rfl, hpool⟩ :=
    (collectFloats_collects m.renamed.blocks).of_run FloatPool.holds_empty hfloats
  refine ⟨pool, ?_, hparts⟩
  rw [← (Program.rename_eq_ok_iff.mp h.rename).2.literals]
  exact hpool

theorem of_assemble_eq_ok {opts : Options} {p : Program} {heap : Heap} {s u : Session} {text : Text}
    (h : (p.assemble opts heap).run.run s = (.ok text, u)) :
    ∃ m : Made, m.IsOf opts p heap s u ∧ text = peephole (m.text opts) := by
  cases hp : p.rename with
  | error fault =>
    rw [assemble_run_of_rename hp] at h
    cases h
  | ok q =>
    cases ht : Assembly.target opts q with
    | error fault =>
      rw [assemble_run_of_target hp ht] at h
      cases h
    | ok t =>
      rw [assemble_run hp ht] at h
      obtain ⟨⟨⟩, s', hfloats, h⟩ := of_run_bind_eq_ok h
      obtain ⟨blocks, u', hblocks, h⟩ := of_run_bind_eq_ok h
      obtain ⟨v, v', hget, h⟩ := of_run_bind_eq_ok h
      cases hget
      obtain ⟨literals, w, hpool, htext⟩ := of_run_bind_eq_ok h
      obtain ⟨hliterals, rfl⟩ := of_mapError_eq_ok hpool
      obtain ⟨parts, hparts, rfl⟩ := of_blockTexts_eq_ok hblocks
      obtain ⟨rfl, rfl⟩ := of_pure_eq_ok htext
      exact ⟨⟨q, t, parts, literals⟩, ⟨hp, ht, ⟨s', hfloats, hparts⟩, hliterals⟩, rfl⟩

theorem Made.IsOf.assemble_run {opts : Options} {p : Program} {heap : Heap} {s u : Session}
    {m : Made} (h : m.IsOf opts p heap s u) :
    (p.assemble opts heap).run.run s = (.ok (peephole (m.text opts)), u) := by
  obtain ⟨t, hfloats, hparts⟩ := h.parts
  rw [Assembly.assemble_run h.rename h.target, body, run_bind_of_ok hfloats,
    run_bind_of_ok hparts.blockTexts_run]
  change (ExceptT.mk (pure ((poolText u.pool).mapError .literal)) >>= _ : Assembling Text).run.run u
    = _
  rw [h.literals]
  rfl

end Assembly

/-! ### Whole lines -/

namespace Text

/-- One line with the newline that ends it, and no other. -/
def IsLine (t : Text) : Prop := ∃ u, newline ∉ u ∧ t = u ++ [newline]

theorem lines_flatten {ls : List Text} (h : ∀ l ∈ ls, IsLine l) : lines ls.flatten = ls := by
  induction ls with
  | nil => rfl
  | cons l ls ih =>
    obtain ⟨⟨u, hu, rfl⟩, hls⟩ := List.forall_mem_cons.mp h
    rw [List.flatten_cons, IsEnded.lines_append (.inr ⟨u, rfl⟩), lines_of_notMem hu, ih hls]
    rfl

theorem isLine_of_mem_lines {t : Text} (h : IsEnded t) : ∀ l ∈ lines t, IsLine l := by
  rcases h with rfl | ⟨u, rfl⟩
  · simp [lines]
  induction u with
  | nil => exact List.forall_mem_singleton.mpr ⟨[], List.not_mem_nil, rfl⟩
  | cons b u ih =>
    rw [List.cons_append, lines]
    by_cases hb : b = newline
    · rw [if_pos hb, List.forall_mem_cons, hb]
      exact ⟨⟨[], List.not_mem_nil, rfl⟩, ih⟩
    · rw [if_neg hb]
      cases hlines : lines (u ++ [newline]) with
      | nil =>
        have hflatten := flatten_lines (u ++ [newline])
        simp [hlines] at hflatten
      | cons line rest =>
        rw [hlines, List.forall_mem_cons] at ih
        obtain ⟨⟨v, hv, rfl⟩, hrest⟩ := ih
        refine List.forall_mem_cons.mpr ⟨⟨b :: v, ?_, rfl⟩, hrest⟩
        simp [hv, Ne.symm hb]

end Text

/-- Index steps cancelled among lines that carry something along. -/
def cancelSourced {α : Type} : List (α × Text) → List (α × Text)
  | first :: second :: rest =>
    if cancels first.2 second.2 then cancelSourced rest
    else first :: cancelSourced (second :: rest)
  | lines => lines

section Cancel

variable {α β : Type}

theorem map_cancelSourced (ls : List (α × Text)) :
    (cancelSourced ls).map (·.2) = cancelLines (ls.map (·.2)) := by
  fun_induction cancelSourced ls with
  | case1 first second rest hcancels ih => simp [cancelLines, hcancels, ih]
  | case2 first second rest hcancels ih => simp [cancelLines, hcancels, ih]
  | case3 ls hls =>
    rcases ls with _ | ⟨first, _ | ⟨second, rest⟩⟩
    · rfl
    · rfl
    · exact absurd rfl (hls first second rest)

/-- Lines that are no index steps all remain. -/
theorem filterMap_cancelSourced {f : α × Text → Option β} {ls : List (α × Text)}
    (h : ∀ l ∈ ls, (IndexStep.ofLine? l.2).isSome → f l = none) :
    (cancelSourced ls).filterMap f = ls.filterMap f := by
  fun_induction cancelSourced ls with
  | case1 first second rest hcancels ih =>
    simp only [List.forall_mem_cons] at h
    obtain ⟨hfirst, hsecond, hrest⟩ := h
    have hsteps : (IndexStep.ofLine? first.2).isSome ∧ (IndexStep.ofLine? second.2).isSome := by
      unfold cancels at hcancels
      split at hcancels
      · simp [*]
      · cases hcancels
    rw [List.filterMap_cons_none (hfirst hsteps.1), List.filterMap_cons_none (hsecond hsteps.2),
      ih hrest]
  | case2 first second rest hcancels ih =>
    obtain ⟨-, hrest⟩ := List.forall_mem_cons.mp h
    simp only [List.filterMap_cons, ih hrest]
  | case3 => rfl

theorem cancels_of_ofLine? {second : Text} (h : IndexStep.ofLine? second = none) (first : Text) :
    cancels first second = false := by
  unfold cancels
  rw [h]
  split
  · simp_all
  · rfl

theorem cancelLines_of_forall {ls : List Text} (h : ∀ l ∈ ls, IndexStep.ofLine? l = none) :
    cancelLines ls = ls := by
  fun_induction cancelLines ls with
  | case1 => rfl
  | case2 line => rfl
  | case3 first second ls hcancels ih =>
    rw [cancels_of_ofLine? (h second (by simp)) first] at hcancels
    cases hcancels
  | case4 first second ls hcancels ih => rw [ih (List.forall_mem_cons.mp h).2]

/-- Lines at the end that are no index steps stay. -/
theorem cancelLines_append (ls : List Text) {rest : List Text}
    (h : ∀ l ∈ rest, IndexStep.ofLine? l = none) :
    cancelLines (ls ++ rest) = cancelLines ls ++ rest := by
  fun_induction cancelLines ls with
  | case1 => exact cancelLines_of_forall h
  | case2 line =>
    cases rest with
    | nil => rfl
    | cons l rest =>
      have hcancels := cancels_of_ofLine? (h l (List.mem_cons_self ..)) line
      rw [List.singleton_append, cancelLines, if_neg (by simp [hcancels]), cancelLines_of_forall h]
  | case3 first second ls hcancels ih =>
    rw [List.cons_append, List.cons_append, cancelLines, if_pos hcancels, ih]
  | case4 first second ls hcancels ih =>
    rw [List.cons_append, List.cons_append, cancelLines, if_neg hcancels]
    exact congrArg (first :: ·) ih

theorem cancelLines_subset (ls : List Text) : cancelLines ls ⊆ ls := by
  fun_induction cancelLines ls with
  | case1 => simp
  | case2 => simp
  | case3 first second rest hcancels ih =>
    exact fun l hl => List.mem_cons_of_mem _ (List.mem_cons_of_mem _ (ih hl))
  | case4 first second rest hcancels ih => exact List.cons_subset_cons _ ih

theorem lines_peephole {t : Text} (h : t.IsEnded) : (peephole t).lines = cancelLines t.lines := by
  rw [peephole_eq_flatten]
  exact Text.lines_flatten fun l hl => Text.isLine_of_mem_lines h l (cancelLines_subset _ hl)

end Cancel

/-! ### Lines and where they come from -/

theorem Text.isEnded_append (t : Text) {u : Text} (h : u.getLast? = some newline) :
    IsEnded (t ++ u) := by
  obtain ⟨v, rfl⟩ := List.getLast?_eq_some_iff.mp h
  exact .inr ⟨t ++ v, (List.append_assoc ..).symm⟩

namespace Catalog

/-- The fragments selected from all of some code, cut as the code is. -/
theorem takes_of_selectAll {window : Int} {c : Catalog}
    (hmake : make window Idiom.all Assignment.rules = .ok c) {scope : Option Text}
    {code : List Instr} {s t : Session} {fs : List Fragment}
    (h : (c.selectAll scope code).run s = (⟨fs, [], none⟩, t)) : c.Takes scope code s fs [] t ∧
      ∃ pieces, List.Forall₂ (LowersTo scope) pieces fs ∧ code = pieces.flatten := by
  by_cases hcode : code = []
  · subst hcode
    rw [selectAll] at h
    cases h
    exact ⟨.nil [] s, [], .nil, rfl⟩
  · obtain ⟨hc, rfl⟩ := isSound_of_make hmake
    have hwindow := window_nonneg_of_selectAll hcode h
    obtain ⟨gs, rest, u, v, htakes, -, hall, -⟩ := hc.selectAll_run hwindow scope code s
    rw [h] at hall
    cases hall
    have hsame := htakes.selectAll_run hc hwindow rfl
    rw [h] at hsame
    cases hsame
    obtain ⟨pieces, hpieces, hflatten⟩ := htakes.lowersTo hmake hwindow
    exact ⟨htakes, pieces, hpieces, hflatten.trans (List.append_nil _)⟩

end Catalog

namespace Assembly

/-- A line with the instruction it comes from, the number of the block and the place in its code.
Lines of the frame come from none. -/
abbrev SourcedLine := Option (Instr × Nat × Nat) × Text

def framed (t : Text) : List SourcedLine := t.lines.map (none, ·)

def BlockPart.lines (k : Nat) (b : Block) (part : BlockPart) : List SourcedLine :=
  framed (part.front b) ++
    (emitted 0 b.code part.fragments).map (fun l => (some (l.1.1, k, l.1.2), l.2)) ++
    framed "\n\t.pend\n\n"

def partsLines (k : Nat) : List Block → List BlockPart → List SourcedLine
  | b :: bs, part :: parts => part.lines k b ++ partsLines (k + 1) bs parts
  | _, _ => []

def Made.lines (opts : Options) (m : Made) : List SourcedLine :=
  framed (header opts m.renamed.name m.target) ++ partsLines 0 m.renamed.blocks m.parts ++
    framed m.literals

theorem map_framed (t : Text) : (framed t).map (·.2) = t.lines := by
  rw [framed, List.map_map]
  exact List.map_id _

theorem isEnded_header (opts : Options) (name : Text) (t : Target) : (header opts name t).IsEnded :=
  Text.isEnded_append _ (by decide)

theorem BlockPart.isEnded_front (b : Block) (part : BlockPart) : (part.front b).IsEnded :=
  Text.isEnded_append _ (by decide)

theorem BlockPart.isEnded_text (b : Block) (part : BlockPart) : (part.text b).IsEnded :=
  Text.isEnded_append _ (by decide)

theorem isEnded_partsText (bs : List Block) (parts : List BlockPart) :
    (partsText bs parts).IsEnded := by
  induction bs generalizing parts with
  | nil => exact .inl rfl
  | cons b bs ih =>
    cases parts with
    | nil => exact .inl rfl
    | cons part parts => exact (part.isEnded_text b).append (ih parts)

theorem isEnded_dataLine (l : DataLine) : l.text.IsEnded := by
  cases l with
  | heading name comment => exact .inr ⟨_, rfl⟩
  | values label directive args comment => exact .inr ⟨_, rfl⟩

theorem isEnded_poolLines {k : Nat} {xs : List Double} {t : Text} (h : poolLines k xs = .ok t) :
    t.IsEnded := by
  induction xs generalizing k t with
  | nil =>
    cases h
    exact .inl rfl
  | cons x xs ih =>
    obtain ⟨line, -, h⟩ := bind_eq_ok_iff.mp h
    obtain ⟨rest, hrest, h⟩ := bind_eq_ok_iff.mp h
    cases h
    exact (isEnded_dataLine line).append (ih hrest)

theorem isEnded_poolTitle : Text.IsEnded "\n; ---- float constants ----\n" :=
  Text.isEnded_append [] (by decide)

theorem isEnded_poolText {pool : FloatPool} {t : Text} (h : poolText pool = .ok t) :
    t.IsEnded := by
  unfold poolText at h
  split at h
  · cases h
    exact .inl rfl
  · obtain ⟨rest, hrest, h⟩ := bind_eq_ok_iff.mp h
    cases h
    exact isEnded_poolTitle.append (isEnded_poolLines hrest)

section Lines

variable {opts : Options} {heap : Heap} {window : Int}
  (hmake : Catalog.make window Idiom.all Assignment.rules = .ok opts.catalog)
include hmake

theorem BlockPart.IsOf.map_lines {b : Block} {s t : Session} {part : BlockPart}
    (h : part.IsOf opts heap b s t) (k : Nat) :
    (part.lines k b).map (·.2) = (part.text b).lines := by
  obtain ⟨u, v, -, -, hall, -⟩ := h
  obtain ⟨-, pieces, hpieces, hcode⟩ := Catalog.takes_of_selectAll hmake hall
  have hemitted : (emitted 0 b.code part.fragments).map (·.2) =
      Text.lines (part.fragments.flatMap Fragment.output) := by
    rw [hcode, map_emitted hpieces]
  have hended : Text.IsEnded (part.fragments.flatMap Fragment.output) :=
    .flatMap fun f _ => f.isEnded_output
  rw [BlockPart.lines, BlockPart.text, List.map_append, List.map_append, map_framed, map_framed,
    List.map_map, ((part.isEnded_front b).append hended).lines_append,
    (part.isEnded_front b).lines_append, ← hemitted]
  rfl

theorem Parts.map_lines {bs : List Block} {s t : Session} {parts : List BlockPart}
    (h : Parts opts heap bs s parts t) (k : Nat) :
    (partsLines k bs parts).map (·.2) = (partsText bs parts).lines := by
  induction h generalizing k with
  | nil => rfl
  | @cons b bs _ _ _ part parts hpart _ ih =>
    have htext : partsText (b :: bs) (part :: parts) = part.text b ++ partsText bs parts := rfl
    rw [partsLines, List.map_append, hpart.map_lines hmake, ih, htext,
      (part.isEnded_text b).lines_append]

theorem Made.IsOf.map_lines {p : Program} {s u : Session} {m : Made}
    (h : m.IsOf opts p heap s u) : (m.lines opts).map (·.2) = (m.text opts).lines := by
  obtain ⟨t, -, hparts⟩ := h.parts
  have hheader := isEnded_header opts m.renamed.name m.target
  have hblocks := isEnded_partsText m.renamed.blocks m.parts
  rw [Made.lines, Made.text, List.map_append, List.map_append, map_framed, map_framed,
    hparts.map_lines hmake, (hheader.append hblocks).lines_append, hheader.lines_append]

/-- Each line of the text is one of those made, with its origin, that were not cancelled. -/
theorem Made.IsOf.lines_peephole {p : Program} {s u : Session} {m : Made}
    (h : m.IsOf opts p heap s u) :
    (peephole (m.text opts)).lines = (cancelSourced (m.lines opts)).map (·.2) := by
  have hended : (m.text opts).IsEnded :=
    ((isEnded_header opts m.renamed.name m.target).append
      (isEnded_partsText m.renamed.blocks m.parts)).append (isEnded_poolText h.literals)
  rw [Stack6502.lines_peephole hended, map_cancelSourced, h.map_lines hmake]

end Lines

end Assembly

end Stack6502
