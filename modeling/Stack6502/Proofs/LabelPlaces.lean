import Stack6502.Proofs.AssembledText

/-!
# Labels and their places

A label is a line at its place in the code, so that its name has the address of the code that
follows. The label with the name of the block has no line of its own: the start of the scope bears
the name. In between stand the declarations of the block and the code before the label, and if any
of that takes bytes the name has another address.
-/
namespace Stack6502

/-! ### Texts that are one line -/

namespace Text

/-- A text that is laid out as it is: nothing divides it, and nothing is trimmed from it. -/
structure IsUncut (t : Text) : Prop where
  noNewline : newline ∉ t
  noBar : byte '|' ∉ t
  trimmed : trim t = t

theorem splitOn_ne_nil (sep : UInt8) (t : Text) : splitOn sep t ≠ [] := by
  fun_cases splitOn sep t <;> simp

theorem of_mem_splitOn {sep : UInt8} {t piece : Text} (h : piece ∈ splitOn sep t) :
    sep ∉ piece ∧ piece ⊆ t := by
  induction t generalizing piece with
  | nil =>
    rw [splitOn, List.mem_singleton] at h
    simp [h]
  | cons b t ih =>
    obtain ⟨first, rest, hpieces⟩ := List.exists_cons_of_ne_nil (splitOn_ne_nil sep t)
    simp only [splitOn, hpieces] at h ih
    have hlater : ∀ u ∈ first :: rest, sep ∉ u ∧ u ⊆ b :: t := fun u hu =>
      ⟨(ih hu).1, List.subset_cons_of_subset b (ih hu).2⟩
    split at h
    · rcases List.mem_cons.mp h with rfl | h
      · simp
      · exact hlater piece h
    · rename_i hb
      rcases List.mem_cons.mp h with rfl | h
      · obtain ⟨hsep, hsub⟩ := ih (List.mem_cons_self ..)
        exact ⟨by simp [hsep, Ne.symm hb], List.cons_subset_cons b hsub⟩
      · exact hlater piece (List.mem_cons_of_mem _ h)

/-- What stands before the first separator joins the first piece. -/
theorem splitOn_append {sep : UInt8} {t u first : Text} {rest : List Text} (h : sep ∉ t)
    (hu : splitOn sep u = first :: rest) : splitOn sep (t ++ u) = (t ++ first) :: rest := by
  induction t with
  | nil => exact hu
  | cons b t ih =>
    obtain ⟨hb, ht⟩ := not_or.mp (mt List.mem_cons.mpr h)
    rw [List.cons_append, splitOn, ih ht]
    exact if_neg (Ne.symm hb)

theorem trim_space_cons (t : Text) : trim (space :: t) = trim t := rfl

theorem isLine_append_newline_iff {t : Text} : IsLine (t ++ [newline]) ↔ newline ∉ t := by
  constructor
  · rintro ⟨u, hu, heq⟩
    rwa [List.append_cancel_right heq]
  · exact fun h => ⟨t, h, rfl⟩

end Text

namespace Fragment

theorem pieceLines_of_isUncut {t : Text} (hne : t ≠ []) (h : t.IsUncut) :
    pieceLines t = t ++ [Text.newline] := by
  have hhead : t.head? ≠ some Text.space := by
    intro hhead
    obtain ⟨u, rfl⟩ := List.head?_eq_some_iff.mp hhead
    have hlen := (Text.trim_infix u).length_le
    rw [← Text.trim_space_cons, h.trimmed, List.length_cons] at hlen
    omega
  rw [pieceLines_of_notMem h.noNewline h.noBar (by rwa [h.trimmed]), if_neg hhead, h.trimmed]
  rfl

/-- The line that a piece of code becomes, if it is visible. -/
def pieceLine? (piece : Text) : Option Text :=
  if piece.trim = [] then none
  else some ((if piece.head? = some Text.space then [Text.tab] else []) ++ piece.trim ++
    [Text.newline])

/-- Text without newlines has one line for each visible piece. -/
theorem lines_pieceLines {t : Text} (h : Text.newline ∉ t) :
    (pieceLines t).lines = (t.splitOn (Text.byte '|')).filterMap pieceLine? := by
  have hcontains : t.contains Text.newline = false := by simpa using h
  have hline : ∀ piece ∈ t.splitOn (Text.byte '|'),
      Text.lines (if piece.trim.isEmpty then [] else
        (if piece.head? == some Text.space then [Text.tab] else []) ++ piece.trim ++
          [Text.newline]) = (pieceLine? piece).toList := by
    intro piece hpiece
    by_cases hempty : piece.trim = []
    · simp [hempty, pieceLine?, Text.lines]
    · have hsub : piece.trim ⊆ t := List.Subset.trans (Text.trim_infix piece).subset
        (Text.of_mem_splitOn hpiece).2
      have hone : Text.newline ∉
          (if piece.head? = some Text.space then [Text.tab] else []) ++ piece.trim := by
        rw [List.mem_append, not_or]
        exact ⟨by split <;> decide, fun hmem => h (hsub hmem)⟩
      have hlines := Text.lines_of_notMem hone
      simpa [hempty, pieceLine?] using hlines
  simp only [pieceLines, hcontains, Bool.false_eq_true, if_false]
  rw [Text.IsEnded.lines_flatMap fun piece _ => isEnded_pieceLine piece,
    List.flatMap_congr hline, List.filterMap_eq_flatMap_toList]

/-- A line of a text without newlines is one piece of it, trimmed. -/
theorem exists_of_mem_lines_pieceLines {t line : Text} (hnewline : Text.newline ∉ t)
    (h : line ∈ (pieceLines t).lines) : ∃ piece ∈ t.splitOn (Text.byte '|'),
      line = (if piece.head? = some Text.space then [Text.tab] else []) ++ piece.trim ++
        [Text.newline] := by
  rw [lines_pieceLines hnewline] at h
  obtain ⟨piece, hpiece, hline⟩ := List.mem_filterMap.mp h
  refine ⟨piece, hpiece, ?_⟩
  unfold pieceLine? at hline
  split at hline
  · cases hline
  · exact (Option.some.inj hline).symm

/-- Among the lines of a text is the text itself exactly if it is one line as it is. -/
theorem mem_lines_pieceLines_iff {t : Text} (hne : t ≠ []) :
    t ++ [Text.newline] ∈ (pieceLines t).lines ↔ t.IsUncut := by
  constructor
  · intro hmem
    have hnewline : Text.newline ∉ t :=
      Text.isLine_append_newline_iff.mp (Text.isLine_of_mem_lines (isEnded_pieceLines t) _ hmem)
    obtain ⟨piece, hpiece, hline⟩ := exists_of_mem_lines_pieceLines hnewline hmem
    have ht := List.append_cancel_right hline
    have hbar : Text.byte '|' ∉ t := by
      rw [ht, List.mem_append, not_or]
      refine ⟨by split <;> decide, fun hmem => ?_⟩
      exact (Text.of_mem_splitOn hpiece).1 ((Text.trim_infix piece).subset hmem)
    rw [Text.splitOn_of_notMem hbar, List.mem_singleton] at hpiece
    subst hpiece
    refine ⟨hnewline, hbar, ?_⟩
    split at ht
    · -- A text that starts with a space does not start with the tab it gets.
      rename_i hhead
      rw [ht] at hhead
      cases hhead
    · exact ht.symm
  · intro h
    rw [pieceLines_of_isUncut hne h, Text.lines_of_notMem h.noNewline]
    exact List.mem_singleton_self _

end Fragment

namespace Assembly

/-! ### Lines and addresses -/

/-- A line of a block with the place in its code of the instruction it comes from. -/
abbrev PlacedLine := Option Nat × Text

def BlockPart.data (part : BlockPart) : Text :=
  "\n" ++ "\n; memdefs and kernel subroutines\n" ++ part.symbols ++
    "\n; variables\n" ++ part.storage ++ "\n"

def scopeLine (b : Block) : Text := b.short ++ "\t.proc\n"

def BlockPart.scopeLines (b : Block) (part : BlockPart) : List PlacedLine :=
  (scopeLine b).lines.map (none, ·) ++ part.data.lines.map (none, ·) ++
    (emitted 0 b.code part.fragments).map (fun l => (some l.1.2, l.2)) ++
    (Text.lines "\n\t.pend\n\n").map (none, ·)

/-- The address of the first line that satisfies `p`, if lines start at `a` and `size` tells how
many bytes each line takes. -/
def addressOf? (size : Text → Nat) (p : PlacedLine → Bool) :
    (a : Nat) → List PlacedLine → Option Nat
  | _, [] => none
  | a, l :: ls => if p l then some a else addressOf? size p (a + size l.2) ls

def definesLabel (b : Block) (x : Instr) (p : Nat) (l : PlacedLine) : Bool :=
  if x.sym = b.short then l == (none, scopeLine b) else l == (some p, x.sym ++ [Text.newline])

def isCodeAfter (size : Text → Nat) (p : Nat) (l : PlacedLine) : Bool :=
  l.1.any (p < ·) && 0 < size l.2

def bytesOf (size : Text → Nat) : List PlacedLine → Nat
  | [] => 0
  | l :: ls => size l.2 + bytesOf size ls

section Addresses

variable {size : Text → Nat} {p : PlacedLine → Bool} {a : Nat} {ls rest : List PlacedLine}

theorem bytesOf_append : bytesOf size (ls ++ rest) = bytesOf size ls + bytesOf size rest := by
  induction ls with
  | nil => simp [bytesOf]
  | cons l ls ih => simp [bytesOf, ih, Nat.add_assoc]

theorem bytesOf_eq_zero_iff : bytesOf size ls = 0 ↔ ∀ l ∈ ls, size l.2 = 0 := by
  induction ls with
  | nil => simp [bytesOf]
  | cons l ls ih => rw [bytesOf, Nat.add_eq_zero_iff, ih, List.forall_mem_cons]

theorem addressOf?_append (h : ∀ l ∈ ls, p l = false) :
    addressOf? size p a (ls ++ rest) = addressOf? size p (a + bytesOf size ls) rest := by
  induction ls generalizing a with
  | nil => simp [bytesOf]
  | cons l ls ih =>
    obtain ⟨hl, hls⟩ := List.forall_mem_cons.mp h
    simp [addressOf?, hl, ih hls, bytesOf, Nat.add_assoc]

theorem addressOf?_eq_none (h : ∀ l ∈ ls, p l = false) : addressOf? size p a ls = none := by
  rw [← List.append_nil ls, addressOf?_append h, addressOf?]

/-- Code starts where its lines start, since the lines before its first byte take none. -/
theorem eq_of_addressOf?_isCodeAfter {place : Nat} (h : ∀ l ∈ ls, l.1.any (place < ·))
    (hrest : ∀ l ∈ rest, l.1 = none) {a' : Nat}
    (ha : addressOf? size (isCodeAfter size place) a (ls ++ rest) = some a') : a' = a := by
  induction ls generalizing a with
  | nil =>
    rw [List.nil_append, addressOf?_eq_none] at ha
    · cases ha
    · intro l hl
      simp [isCodeAfter, hrest l hl]
  | cons l ls ih =>
    obtain ⟨hl, hls⟩ := List.forall_mem_cons.mp h
    rw [List.cons_append, addressOf?] at ha
    by_cases hsize : size l.2 = 0
    · rw [if_neg (by simp [isCodeAfter, hsize]), hsize] at ha
      exact ih hls ha
    · rw [if_pos (by simp [isCodeAfter, hl, Nat.pos_of_ne_zero hsize])] at ha
      exact (Option.some.inj ha).symm

end Addresses

section Place

variable {size : Text → Nat} {place origin a : Nat} {front after closing : List PlacedLine}
  {own : List Text} (hfront : ∀ l ∈ front, ∀ q, l.1 = some q → q < place)
  (hafter : ∀ l ∈ after, l.1.any (place < ·)) (hclosing : ∀ l ∈ closing, l.1 = none)
  (ha : addressOf? size (isCodeAfter size place) origin
    (front ++ own.map (some place, ·) ++ (after ++ closing)) = some a)
include hfront hafter hclosing ha

/-- The code after a place starts after the lines before the place and its own. -/
theorem eq_of_code_after : a = origin + bytesOf size (front ++ own.map (some place, ·)) := by
  rw [addressOf?_append] at ha
  · exact eq_of_addressOf?_isCodeAfter hafter hclosing ha
  · intro l hl
    have hle : ∀ q, l.1 = some q → q ≤ place := by
      rcases List.mem_append.mp hl with hl | hl
      · exact fun q hq => Nat.le_of_lt (hfront l hl q hq)
      · obtain ⟨line, -, rfl⟩ := List.mem_map.mp hl
        rintro q ⟨⟩
        exact Nat.le_refl _
    cases hplace : l.1 with
    | none => simp [isCodeAfter, hplace]
    | some q => simp [isCodeAfter, hplace, Nat.not_lt.mpr (hle q hplace)]

/-- A line that takes no bytes has the address of the code after a place exactly if it is a line of
that place. -/
theorem addressOf?_ownLine_iff {line : Text} (hsize : size line = 0)
    (hone : line ∈ own → own = [line]) :
    addressOf? size (· == (some place, line)) origin
      (front ++ own.map (some place, ·) ++ (after ++ closing)) = some a ↔ line ∈ own := by
  have hcode := eq_of_code_after hfront hafter hclosing ha
  have hbefore : ∀ l ∈ front, (l == (some place, line)) = false := fun l hl =>
    beq_eq_false_iff_ne.mpr fun heq => Nat.lt_irrefl _ (hfront l hl place (by rw [heq]))
  have hbehind : ∀ l ∈ after ++ closing, (l == (some place, line)) = false := by
    intro l hl
    rw [beq_eq_false_iff_ne]
    rintro rfl
    rcases List.mem_append.mp hl with hl | hl
    · simpa using hafter _ hl
    · cases hclosing _ hl
  rw [List.append_assoc, addressOf?_append hbefore]
  constructor
  · intro haddress
    by_contra hline
    have hown : ∀ l ∈ own.map (some place, ·), (l == (some place, line)) = false := by
      intro l hl
      obtain ⟨other, hother, rfl⟩ := List.mem_map.mp hl
      have hne : other ≠ line := fun heq => hline (heq ▸ hother)
      simp [hne]
    rw [addressOf?_append hown, addressOf?_eq_none hbehind] at haddress
    cases haddress
  · intro hline
    rw [hone hline] at hcode ⊢
    rw [bytesOf_append] at hcode
    simp [addressOf?, hcode, bytesOf, hsize]

end Place

/-! ### The lines of a block around a label -/

theorem scopeLine_eq (b : Block) : scopeLine b = (b.short ++ "\t.proc") ++ [Text.newline] := by
  rw [List.append_assoc]
  rfl

theorem lines_scopeLine {b : Block} (h : Text.newline ∉ b.short) :
    (scopeLine b).lines = [scopeLine b] := by
  have hnotMem : Text.newline ∉ b.short ++ Text.ofString "\t.proc" := by
    rw [List.mem_append, not_or]
    exact ⟨h, by decide⟩
  rw [scopeLine_eq, Text.lines_of_notMem hnotMem]

/-- The name of a scope is defined where the scope starts, if the start is one line. -/
theorem addressOf?_scopeLine (size : Text → Nat) (origin : Nat) (b : Block) (part : BlockPart) :
    addressOf? size (· == (none, scopeLine b)) origin (part.scopeLines b) =
      if Text.newline ∈ b.short then none else some origin := by
  split
  · rename_i hnewline
    -- No line has a newline within it.
    have hline (t : Text) (ht : t.IsEnded) : ∀ l ∈ t.lines, l ≠ scopeLine b := by
      rintro l hl rfl
      have hisLine := Text.isLine_of_mem_lines ht _ hl
      rw [scopeLine_eq, Text.isLine_append_newline_iff] at hisLine
      exact hisLine (List.mem_append_left _ hnewline)
    apply addressOf?_eq_none
    intro l hl
    simp only [BlockPart.scopeLines, List.mem_append, List.mem_map] at hl
    rcases hl with ((⟨line, hl, rfl⟩ | ⟨line, hl, rfl⟩) | ⟨source, hl, rfl⟩) | ⟨line, hl, rfl⟩
    · simp [hline _ (Text.isEnded_append _ (by decide)) line hl]
    · simp [hline _ (Text.isEnded_append _ (by decide)) line hl]
    · simp
    · simp [hline _ (Text.isEnded_append [] (by decide)) line hl]
  · rename_i hnewline
    simp [BlockPart.scopeLines, lines_scopeLine hnewline, addressOf?]

/-- The lines of a block divided by the place `p`: those before it, its own and those after it. -/
structure BlockPart.DividesAt (b : Block) (part : BlockPart) (p : Nat) (before : List PlacedLine)
    (own : List Text) (after : List PlacedLine) : Prop where
  lines : part.scopeLines b = (scopeLine b).lines.map (none, ·) ++
    (part.data.lines.map (none, ·) ++ before) ++ own.map (some p, ·) ++
    (after ++ (Text.lines "\n\t.pend\n\n").map (none, ·))
  before : ∀ l ∈ before, l.1.any (· < p)
  after : ∀ l ∈ after, l.1.any (p < ·)

namespace BlockPart.DividesAt

variable {b : Block} {part : BlockPart} {p : Nat} {before after : List PlacedLine}
  {own : List Text}

theorem front (h : part.DividesAt b p before own after) : ∀ l ∈ (scopeLine b).lines.map (none, ·) ++
    (part.data.lines.map (none, ·) ++ before), ∀ q, l.1 = some q → q < p := by
  simp only [List.mem_append, List.mem_map]
  rintro l (⟨line, -, rfl⟩ | ⟨line, -, rfl⟩ | hl) q hq
  · cases hq
  · cases hq
  · simpa [hq] using h.before l hl

theorem closing : ∀ l ∈ (Text.lines "\n\t.pend\n\n").map ((none, ·) : Text → PlacedLine),
    l.1 = none := by
  simp

theorem mem_before_iff (h : part.DividesAt b p before own after) {l : PlacedLine} :
    l ∈ before ↔ l ∈ part.scopeLines b ∧ l.1.any (· < p) := by
  constructor
  · intro hl
    refine ⟨?_, h.before l hl⟩
    rw [h.lines]
    simp [hl]
  · rintro ⟨hl, hlt⟩
    rw [h.lines] at hl
    simp only [List.mem_append, List.mem_map] at hl
    rcases hl with ((⟨line, -, rfl⟩ | ⟨line, -, rfl⟩ | hl) | ⟨line, -, rfl⟩) | hl | ⟨line, -, rfl⟩
    · simp at hlt
    · simp at hlt
    · exact hl
    · simp at hlt
    · have hgt := h.after l hl
      cases hq : l.1 with
      | none => simp [hq] at hlt
      | some q =>
        simp only [hq, Option.any_some, decide_eq_true_eq] at hgt hlt
        omega
    · simp at hlt

variable {size : Text → Nat} {origin a : Nat}

/-- The name of the scope has the address of the code after a place without lines exactly if nothing
in between takes bytes. -/
theorem scopeLine_iff (h : part.DividesAt b p before [] after) (hsize : size (scopeLine b) = 0)
    (ha : addressOf? size (isCodeAfter size p) origin (part.scopeLines b) = some a) :
    addressOf? size (· == (none, scopeLine b)) origin (part.scopeLines b) = some a ↔
      Text.newline ∉ b.short ∧ (∀ l ∈ part.data.lines, size l = 0) ∧
        ∀ l ∈ part.scopeLines b, l.1.any (· < p) → size l.2 = 0 := by
  rw [addressOf?_scopeLine]
  by_cases hnewline : Text.newline ∈ b.short
  · simp [hnewline]
  · have hbytes : a = origin + (bytesOf size (part.data.lines.map (none, ·)) +
        bytesOf size before) := by
      rw [h.lines] at ha
      rw [eq_of_code_after h.front h.after closing ha, lines_scopeLine hnewline, bytesOf_append,
        bytesOf_append, bytesOf_append]
      simp [bytesOf, hsize]
    have hdata : bytesOf size (part.data.lines.map (none, ·)) = 0 ↔
        ∀ l ∈ part.data.lines, size l = 0 := by
      rw [bytesOf_eq_zero_iff, List.forall_mem_map]
    have hcode : bytesOf size before = 0 ↔
        ∀ l ∈ part.scopeLines b, l.1.any (· < p) → size l.2 = 0 := by
      simp only [bytesOf_eq_zero_iff, h.mem_before_iff, and_imp]
    rw [if_neg hnewline, and_iff_right hnewline, ← hdata, ← hcode, Option.some.injEq]
    omega

end BlockPart.DividesAt

/-- A block in a session has one part. -/
theorem BlockPart.IsOf.unique {opts : Options} {heap : Heap} {b : Block} {s t u : Session}
    {part other : BlockPart} (h : part.IsOf opts heap b s t) (hother : other.IsOf opts heap b s u) :
    part = other := by
  obtain ⟨v, w, hsymbols, hstorage, hall, -⟩ := h
  obtain ⟨v', w', hsymbols', hstorage', hall', -⟩ := hother
  obtain ⟨hsymbols, rfl⟩ := Prod.mk.inj (hsymbols.symm.trans hsymbols')
  have hsymbols := Except.ok.inj hsymbols
  have hstorage := Except.ok.inj (hstorage.symm.trans hstorage')
  have hfragments := congrArg (·.1.fragments) (hall.symm.trans hall')
  cases part
  cases other
  simp_all

/-- The text of a block up to its code, divided where the scope starts. -/
theorem exists_front (b : Block) (part : BlockPart) : ∃ lead : Text, lead.IsEnded ∧
    part.front b = lead ++ (scopeLine b ++ part.data) := by
  let a := hex b.address
  refine ⟨"\n; ---- block: '" ++ b.short ++ "' ----\n" ++ (if b.isPinned then
      ".cerror * > " ++ a ++ ", 'block address overlaps by ', *-" ++ a ++ ",' bytes'\n" ++
      "* = " ++ a ++ "\n" else []), ?_, ?_⟩
  · refine (Text.isEnded_append _ (by decide)).append ?_
    split
    · exact Text.isEnded_append _ (by decide)
    · exact .inl rfl
  · have hend : Text.ofString "\t.proc\n\n" = "\t.proc\n" ++ "\n" := rfl
    simp only [BlockPart.front, blockStart, scopeLine, BlockPart.data, hend, List.append_assoc, a]

section Around

variable {opts : Options} {heap : Heap} {window : Int}
  (hmake : Catalog.make window Idiom.all Assignment.rules = .ok opts.catalog)
include hmake

theorem BlockPart.IsOf.scopeLines_suffix {b : Block} {s t : Session} {part : BlockPart}
    (h : part.IsOf opts heap b s t) :
    (part.scopeLines b).map (·.2) <:+ (part.text b).lines := by
  obtain ⟨lead, hlead, hfront⟩ := exists_front b part
  have hscope : (scopeLine b).IsEnded := Text.isEnded_append _ (by decide)
  refine ⟨lead.lines, ?_⟩
  rw [← h.map_lines hmake 0, BlockPart.lines, framed, hfront, hlead.lines_append,
    hscope.lines_append]
  simp [BlockPart.scopeLines, framed, Function.comp_def]

/-- No pattern covers a label, so the lines of a block are divided there. -/
theorem BlockPart.IsOf.exists_dividesAt {b : Block} {s t : Session} {part : BlockPart}
    (h : part.IsOf opts heap b s t) {x : Instr} {p : Nat} (hx : b.code[p]? = some x)
    (hlabel : x.isLabel) : ∃ f before after, LowersTo (some b.short) [x] f ∧
      part.DividesAt b p before f.output.lines after := by
  obtain ⟨u, v, -, -, hall, -⟩ := h
  obtain ⟨-, pieces, hpieces, hcode⟩ := Catalog.takes_of_selectAll hmake hall
  have hturn : x.op.isStraight = false := by
    rw [beq_iff_eq.mp hlabel]
    rfl
  rw [hcode] at hx
  obtain ⟨ps, qs, gs, f, hs, -, -, -, hf, -, hlines, hbefore, hafter⟩ :=
    exists_emitted_at hpieces 0 hturn hx
  rw [← hcode] at hlines
  rw [Nat.zero_add] at hlines hbefore hafter
  refine ⟨f, (emitted 0 ps.flatten gs).map fun l => (some l.1.2, l.2),
    (emitted (p + 1) qs.flatten hs).map fun l => (some l.1.2, l.2), hf, ⟨?_, ?_, ?_⟩⟩
  · simp [BlockPart.scopeLines, hlines, Function.comp_def]
  · exact List.forall_mem_map.mpr fun l hl => decide_eq_true (hbefore l hl)
  · exact List.forall_mem_map.mpr fun l hl => decide_eq_true (hafter l hl)

end Around

end Assembly

/-! ### The address of a label -/

open Assembly in
/-- Whatever bytes the lines of a block take, a label other than that of the block has the address
of the code after it exactly if its name is one line as it is. The label of the block has it exactly
if its name has no newline and neither the declarations nor the code before the label take bytes. -/
theorem Block.label_placed_iff {opts : Options} {heap : Heap} {window : Int}
    (hmake : Catalog.make window Idiom.all Assignment.rules = .ok opts.catalog) {b : Block}
    {s u : Session} {text : Text} (hrun : (blockText opts heap b).run.run s = (.ok text, u))
    {x : Instr} {p : Nat} (hx : b.code[p]? = some x) (hlabel : x.isLabel) :
    ∃ part : BlockPart, part.IsOf opts heap b s u ∧ text = part.text b ∧
      (part.scopeLines b).map (·.2) <:+ text.lines ∧
      ∀ (size : Text → Nat) (origin a : Nat),
        (∀ l, definesLabel b x p l → size l.2 = 0) →
        addressOf? size (isCodeAfter size p) origin (part.scopeLines b) = some a →
        (addressOf? size (definesLabel b x p) origin (part.scopeLines b) = some a ↔
          if x.sym = b.short then Text.newline ∉ b.short ∧ (∀ l ∈ part.data.lines, size l = 0) ∧
            ∀ l ∈ part.scopeLines b, l.1.any (· < p) → size l.2 = 0
          else x.sym.IsUncut) := by
  obtain ⟨part, hpart, rfl⟩ := of_blockText_eq_ok hrun
  refine ⟨part, hpart, rfl, hpart.scopeLines_suffix hmake, fun size origin a hsize ha => ?_⟩
  obtain ⟨f, before, after, hf, hdivides⟩ := hpart.exists_dividesAt hmake hx hlabel
  obtain ⟨houtput, hne⟩ := hf.output_label hlabel
  by_cases hsym : x.sym = b.short
  · have hdefines : definesLabel b x p = (· == (none, scopeLine b)) := by
      funext l
      simp [definesLabel, hsym]
    rw [if_pos (by rw [hsym])] at houtput
    rw [houtput] at hdivides
    rw [hdefines] at hsize ⊢
    rw [if_pos hsym]
    exact hdivides.scopeLine_iff (hsize (none, scopeLine b) (by simp)) ha
  · have hdefines : definesLabel b x p = (· == (some p, x.sym ++ [Text.newline])) := by
      funext l
      simp [definesLabel, hsym]
    have hscope : some b.short ≠ some x.sym := fun heq => hsym (Option.some.inj heq).symm
    have hline := Fragment.mem_lines_pieceLines_iff (hne hscope)
    rw [if_neg hscope] at houtput
    rw [hdefines] at hsize ⊢
    rw [if_neg hsym, hdivides.lines, ← hline, ← houtput]
    rw [hdivides.lines] at ha
    refine addressOf?_ownLine_iff hdivides.front hdivides.after BlockPart.DividesAt.closing ha
      (hsize (some p, _) (by simp)) fun hmem => ?_
    rw [houtput] at hmem ⊢
    have huncut := hline.mp hmem
    rw [Fragment.pieceLines_of_isUncut (hne hscope) huncut, Text.lines_of_notMem huncut.noNewline]

namespace Placing

open Assembly

/-- A label in the middle, to which the end jumps back. -/
def block (name : Text) : Block where
  name := "main"
  short := "main"
  address := 0
  decls := []
  code :=
    [{ op := .known .nop }, { op := .known .label, sym := name }, { op := .known .nop },
     { op := .known .jump, sym := name }]

def nop : Fragment := ⟨"fallback NOP", [[Asm.op .nop]], 1, false⟩

def part (name : Text) (label : Code) : BlockPart where
  symbols := []
  storage := []
  fragments :=
    [nop, ⟨"fallback LABEL", label, 1, false⟩, nop,
     ⟨"fallback JUMP", [[.instr .jmp (.direct (.name name))]], 1, false⟩]

def bytes (line : Text) : Nat :=
  if line = Text.ofString "\tnop\n" then 1 else if line.startsWith "\tjmp" then 3 else 0

theorem exists_isOf {name : Text} {label : Code}
    (h : Catalog.standard.Takes (some "main") (block name).code .start (part name label).fragments
      [] .start) : ∃ u, (part name label).IsOf .standard [] (block name) .start u :=
  ⟨_, _, _, rfl, variableTexts_stored (by simp [block]) _ _,
    h.selectAll_run Catalog.isSound_standard (by decide) rfl, rfl⟩

theorem loop_isOf :
    ∃ u, (part "loop" [[.label "loop"]]).IsOf .standard [] (block "loop") .start u :=
  exists_isOf (.cons rfl (.cons rfl (.cons rfl (.cons rfl (.nil _ _)))))

theorem main_isOf : ∃ u, (part "main" []).IsOf .standard [] (block "main") .start u :=
  exists_isOf (.cons rfl (.cons rfl (.cons rfl (.cons rfl (.nil _ _)))))

end Placing

open Assembly Placing in
theorem Block.label_placed_iff_loop :
    ∃ text u, (blockText .standard [] (block "loop")).run.run .start = (.ok text, u) ∧
      ∃ part : BlockPart, part.IsOf .standard [] (block "loop") .start u ∧
        addressOf? bytes (isCodeAfter bytes 1) 0 (part.scopeLines (block "loop")) = some 1 ∧
        addressOf? bytes (definesLabel (block "loop") { op := .known .label, sym := "loop" } 1) 0
          (part.scopeLines (block "loop")) = some 1 := by
  have hmake : Catalog.make Catalog.defaultWindow Idiom.all Assignment.rules =
      .ok Options.standard.catalog := Catalog.make_all _
  obtain ⟨u, hpart⟩ := loop_isOf
  obtain ⟨part, hpart', -, -, hplaced⟩ := Block.label_placed_iff hmake hpart.blockText_run
    (x := { op := .known .label, sym := "loop" }) (p := 1) rfl rfl
  obtain rfl := hpart.unique hpart'
  have hafter : addressOf? bytes (isCodeAfter bytes 1) 0
      ((Placing.part "loop" [[.label "loop"]]).scopeLines (block "loop")) = some 1 := by decide
  have hsize : ∀ l, definesLabel (block "loop") { op := .known .label, sym := "loop" } 1 l →
      bytes l.2 = 0 := by
    intro l hl
    rw [beq_iff_eq.mp hl]
    decide
  exact ⟨_, u, hpart.blockText_run, _, hpart, hafter,
    (hplaced bytes 0 1 hsize hafter).mpr ⟨by decide, by decide, by decide⟩⟩

open Assembly Placing in
/-- The label of the block is taken for the start of its scope, although an instruction stands
between the two. -/
theorem Block.label_misplaced :
    ∃ u, (blockText .standard [] (block "main")).run.run .start =
        (.ok ((part "main" []).text (block "main")), u) ∧
      (part "main" []).IsOf .standard [] (block "main") .start u ∧
      (part "main" []).fragments.flatMap Fragment.output =
        Text.ofString "\tnop\n\tnop\n\tjmp  main\n" ∧
      addressOf? bytes (isCodeAfter bytes 1) 0 ((part "main" []).scopeLines (block "main")) =
        some 1 ∧
      addressOf? bytes (definesLabel (block "main") { op := .known .label, sym := "main" } 1) 0
        ((part "main" []).scopeLines (block "main")) = some 0 := by
  obtain ⟨u, hpart⟩ := main_isOf
  exact ⟨u, hpart.blockText_run, hpart, by decide, by decide, by decide⟩

end Stack6502
