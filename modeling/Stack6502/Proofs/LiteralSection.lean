import Stack6502.Proofs.DataReadBack
import Stack6502.Proofs.SharedLiterals

/-!
# The section of literals

The literals stand at the end of the text, one line each: the label, the five bytes and the number
in decimal. The bytes can be read back from the line. Labels differ, so that each is defined once.
-/
namespace Stack6502

namespace Double

open Text

theorem newline_notMem_zeros (n : Nat) : newline ∉ zeros n := fun h =>
  absurd (List.eq_of_mem_replicate h) (by decide)

theorem newline_notMem_positional {digits : Text} (h : newline ∉ digits) (point : Int) :
    newline ∉ positional digits point := by
  unfold positional
  split
  · simp only [List.mem_append, not_or]
    exact ⟨⟨by decide, newline_notMem_zeros _⟩, h⟩
  · split
    · simp only [List.mem_append, not_or]
      exact ⟨h, newline_notMem_zeros _⟩
    · simp only [List.mem_append, not_or]
      exact ⟨⟨fun hm => h (List.mem_of_mem_take hm), by decide⟩,
        fun hm => h (List.mem_of_mem_drop hm)⟩

theorem newline_notMem_exponential {digits : Text} (h : newline ∉ digits) (point : Int) :
    newline ∉ exponential digits point := by
  unfold exponential
  simp only [List.mem_append, not_or]
  refine ⟨⟨⟨fun hm => h (List.mem_of_mem_take hm), ?_⟩, ?_⟩,
    newline_notMem_padLeft (by decide) (newline_notMem_ofNat _) _⟩
  · split
    · simp
    · rw [List.mem_cons, not_or]
      exact ⟨by decide, fun hm => h (List.mem_of_mem_drop hm)⟩
  · split
    · decide
    · decide

theorem newline_notMem_signText (x : Double) : newline ∉ x.signText := by
  unfold signText
  split
  · decide
  · decide

theorem newline_notMem_text (style : FloatStyle) (x : Double) : newline ∉ x.text style := by
  unfold text
  split
  · decide
  split
  · split
    · decide
    · decide
  split
  · rw [List.mem_append, not_or]
    exact ⟨newline_notMem_signText x, by decide⟩
  · have hdigits : newline ∉
        ((ofNat x.shortest.digits).reverse.dropWhile (· == byte '0')).reverse := by
      rw [List.mem_reverse]
      intro h
      exact newline_notMem_ofNat _ (List.mem_reverse.mp ((List.dropWhile_sublist _).subset h))
    dsimp only
    rw [List.mem_append, not_or]
    refine ⟨newline_notMem_signText x, ?_⟩
    split
    · exact newline_notMem_exponential hdigits _
    · exact newline_notMem_positional hdigits _

end Double

/-! ### The lines of literals -/

namespace FloatPool

theorem isVisible_of_mem_label {k : Nat} {b : UInt8} (h : b ∈ label k) : Text.IsVisible b := by
  rcases List.mem_append.mp h with h | h
  · have htable : (Text.ofString "tg_const_float_").all fun b => decide (Text.IsVisible b) := by
      decide
    exact of_decide_eq_true (List.all_eq_true.mp htable b h)
  · have hdigit := Text.toNat_of_mem_ofNat h
    exact ⟨by omega, by omega⟩

theorem words_label (k : Nat) : (label k).words = [label k] := by
  have hne : label k ≠ [] := List.cons_ne_nil _ _
  exact (Text.isWord_of_visible hne fun b => isVisible_of_mem_label).words_eq

theorem semicolon_notMem_label (k : Nat) : Text.byte ';' ∉ label k := by
  rw [label, List.mem_append, not_or]
  exact ⟨by decide, fun h => absurd (Text.toNat_of_mem_ofNat h) (by decide)⟩

/-- What a line starts with that defines a label. -/
def mark (k : Nat) : Text := label k ++ [Text.tab]

/-- A label ends where the tab stands. -/
theorem eq_of_mark_append {j k : Nat} {t u : Text} (h : mark j ++ t = mark k ++ u) : j = k := by
  have hdigits (n : Nat) (t : Text) :
      (Text.ofNat n ++ Text.tab :: t).takeWhile (· != Text.tab) = Text.ofNat n := by
    have hne : ∀ b ∈ Text.ofNat n, b != Text.tab := by
      intro b hb
      have hdigit := Text.toNat_of_mem_ofNat hb
      rw [bne_iff_ne]
      rintro rfl
      exact absurd hdigit (by decide)
    rw [List.takeWhile_append_of_pos hne]
    exact List.append_nil _
  simp only [mark, label, List.append_assoc, List.append_cancel_left_eq] at h
  apply Text.ofNat_injective
  rw [← hdigits j t, ← hdigits k u]
  exact congrArg _ h

end FloatPool

namespace Assembly

def literalLine (k : Nat) (x : Double) (packed : FiveByte) : Text :=
  (DataLine.values (FloatPool.label k) ".byte" (packed.bytes.map Storage.hexByte)
    (some ("float " ++ x.text .value))).text

/-- A line holds the five bytes of a literal after the label of its number. -/
def IsLiteralLine (literal : Double × Nat) (line : Text) : Prop :=
  ∃ packed, FiveByte.encode literal.1 = .ok packed ∧ line = literalLine literal.2 literal.1 packed

theorem isLine_literalLine (k : Nat) (x : Double) (packed : FiveByte) :
    (literalLine k x packed).IsLine := by
  have hbytes : Text.newline ∉ Text.join ", " (packed.bytes.map Storage.hexByte) := by
    refine Text.notMem_join (by decide) ?_
    simp only [List.forall_mem_map]
    exact fun b _ => Text.newline_notMem_hex _
  refine ⟨_, ?_, rfl⟩
  simp only [FloatPool.label, List.mem_append, not_or]
  exact ⟨⟨⟨⟨⟨⟨by decide, Text.newline_notMem_ofNat k⟩, by decide⟩, by decide⟩, by decide⟩, hbytes⟩,
    by decide, by decide, x.newline_notMem_text .value⟩

theorem startsWith_literalLine (j k : Nat) (x : Double) (packed : FiveByte) :
    Text.startsWith (FloatPool.mark j) (literalLine k x packed) ↔ j = k := by
  have hline : FloatPool.mark k <+: literalLine k x packed := by
    simp only [literalLine, DataLine.text, FloatPool.mark, List.append_assoc,
      List.prefix_append_right_inj, List.prefix_append]
  rw [Text.startsWith_iff]
  constructor
  · rintro ⟨t, ht⟩
    obtain ⟨u, hu⟩ := hline
    exact FloatPool.eq_of_mark_append (ht.trans hu.symm)
  · rintro rfl
    exact hline

/-- The five bytes are read back from the line. -/
theorem read_literalLine (k : Nat) (x : Double) (packed : FiveByte) :
    Directive.read (literalLine k x packed) =
      .ok ⟨".byte", packed.bytes.map Storage.byteValue⟩ := by
  have hlabel := FloatPool.semicolon_notMem_label k
  have hdot : ∀ w ∈ (FloatPool.label k).words, Text.startsWith "." w = false := by
    rw [FloatPool.words_label, List.forall_mem_singleton]
    rfl
  have hvalues : ∀ v ∈ packed.bytes.map Storage.byteValue, v ≠ Int64.minValue :=
    List.forall_mem_map.mpr fun b _ => Storage.byteValue_ne_minValue b
  have hplain : Text.byte ';' ∉
      (Storage.integerLine (FloatPool.label k) .ubyte (packed.bytes.map Storage.byteValue)).text :=
    mt Storage.semicolon_mem_integerLine.mp hlabel
  rw [literalLine, Storage.map_hexByte]
  exact (Directive.read_comment hplain _).trans
    ((Storage.read_integerLine_iff hlabel (by simp [FiveByte.bytes])).mpr ⟨hdot, hvalues⟩)

theorem ofLine?_literalLines {ps : List (Double × Nat)} {lines : List Text}
    (h : List.Forall₂ IsLiteralLine ps lines) : ∀ l ∈ lines, IndexStep.ofLine? l = none := by
  induction h with
  | nil => simp
  | cons hline _ ih =>
    obtain ⟨packed, -, rfl⟩ := hline
    exact List.forall_mem_cons.mpr ⟨rfl, ih⟩

theorem lines_poolLines {k : Nat} {xs : List Double} {t : Text} (h : poolLines k xs = .ok t) :
    List.Forall₂ IsLiteralLine (xs.zipIdx k) t.lines := by
  induction xs generalizing k t with
  | nil =>
    cases h
    exact .nil
  | cons x xs ih =>
    obtain ⟨line, hline, h⟩ := bind_eq_ok_iff.mp h
    obtain ⟨rest, hrest, h⟩ := bind_eq_ok_iff.mp h
    obtain ⟨packed, hpacked, hline⟩ := bind_eq_ok_iff.mp hline
    have hlines : (literalLine k x packed ++ rest).lines =
        literalLine k x packed :: rest.lines := by
      obtain ⟨u, hu, heq⟩ := isLine_literalLine k x packed
      rw [heq, Text.IsEnded.lines_append (.inr ⟨u, rfl⟩), Text.lines_of_notMem hu]
      rfl
    cases hline
    cases h
    rw [List.zipIdx_cons]
    exact hlines ▸ .cons ⟨packed, hpacked, rfl⟩ (ih hrest)

/-- The lines with a label are those of the literals with its number. -/
theorem filter_literalLines {ps : List (Double × Nat)} {lines : List Text}
    (h : List.Forall₂ IsLiteralLine ps lines) (j : Nat) :
    List.Forall₂ IsLiteralLine (ps.filter (·.2 == j))
      (lines.filter (Text.startsWith (FloatPool.mark j))) := by
  induction h with
  | nil => exact .nil
  | @cons literal line ps lines hline _ ih =>
    obtain ⟨packed, hpacked, rfl⟩ := hline
    have hstarts := startsWith_literalLine j literal.2 literal.1 packed
    by_cases hj : j = literal.2
    · rw [List.filter_cons_of_pos (by simp [hj]), List.filter_cons_of_pos (hstarts.mpr hj)]
      exact .cons ⟨packed, hpacked, rfl⟩ ih
    · rw [List.filter_cons_of_neg (by simpa using Ne.symm hj),
        List.filter_cons_of_neg (mt hstarts.mp hj)]
      exact ih

theorem filter_zipIdx {xs : List Double} {j : Nat} {x : Double} (h : xs[j]? = some x) (k : Nat) :
    (xs.zipIdx k).filter (·.2 == k + j) = [(x, k + j)] := by
  induction xs generalizing j k with
  | nil => simp at h
  | cons y ys ih =>
    rw [List.zipIdx_cons]
    cases j with
    | zero =>
      cases h
      have hrest : (ys.zipIdx (k + 1)).filter (·.2 == k) = [] := by
        rw [List.filter_eq_nil_iff]
        intro literal hmem heq
        have hle := List.le_snd_of_mem_zipIdx hmem
        have hk := beq_iff_eq.mp heq
        omega
      rw [Nat.add_zero, List.filter_cons_of_pos (by simp), hrest]
    | succ j =>
      rw [List.filter_cons_of_neg (by simp), ← Nat.succ_add_eq_add_succ]
      exact ih (by simpa using h) (k + 1)

/-! ### The section -/

def sectionTitle : List Text := [[Text.newline], Text.ofString "; ---- float constants ----\n"]

/-- The section has a title and then the literals, or is not there if there are none. -/
theorem lines_poolText {pool : FloatPool} {t : Text} (h : poolText pool = .ok t) :
    ∃ title lines, (title = [] ∨ title = sectionTitle) ∧ t.lines = title ++ lines ∧
      List.Forall₂ IsLiteralLine pool.values.zipIdx lines := by
  unfold poolText at h
  split at h
  · rename_i hempty
    cases h
    rw [List.isEmpty_iff.mp hempty]
    exact ⟨[], [], .inl rfl, rfl, .nil⟩
  · obtain ⟨rest, hrest, h⟩ := bind_eq_ok_iff.mp h
    cases h
    refine ⟨sectionTitle, rest.lines, .inr rfl, ?_, lines_poolLines hrest⟩
    rw [isEnded_poolTitle.lines_append]
    rfl

theorem defined_once {pool : FloatPool} {t : Text} (h : poolText pool = .ok t) {k : Nat}
    {x : Double} (hk : pool.values[k]? = some x) : ∃ packed, FiveByte.encode x = .ok packed ∧
      t.lines.filter (Text.startsWith (FloatPool.mark k)) = [literalLine k x packed] := by
  obtain ⟨title, lines, htitle, hlines, hliterals⟩ := lines_poolText h
  have hnone : title.filter (Text.startsWith (FloatPool.mark k)) = [] := by
    rcases htitle with rfl | rfl
    · rfl
    · rfl
  have hfilter := filter_literalLines hliterals k
  rw [← Nat.zero_add k, filter_zipIdx hk, Nat.zero_add] at hfilter
  obtain ⟨line, rest, ⟨packed, hpacked, rfl⟩, hrest, hline⟩ :=
    List.forall₂_cons_left_iff.mp hfilter
  rw [List.forall₂_nil_left_iff.mp hrest] at hline
  refine ⟨packed, hpacked, ?_⟩
  rw [hlines, List.filter_append, hnone, hline]
  rfl

theorem ofLine?_section {pool : FloatPool} {t : Text} (h : poolText pool = .ok t) :
    ∀ l ∈ t.lines, IndexStep.ofLine? l = none := by
  obtain ⟨title, lines, htitle, hlines, hliterals⟩ := lines_poolText h
  have hnone : ∀ l ∈ title, IndexStep.ofLine? l = none := by
    rcases htitle with rfl | rfl
    · simp
    · decide
  intro l hl
  rw [hlines, List.mem_append] at hl
  rcases hl with hl | hl
  · exact hnone l hl
  · exact ofLine?_literalLines hliterals l hl

theorem Made.IsOf.peephole_text {opts : Options} {p : Program} {heap : Heap} {s u : Session}
    {m : Made} (h : m.IsOf opts p heap s u) : peephole (m.text opts) =
      peephole (header opts m.renamed.name m.target ++ partsText m.renamed.blocks m.parts) ++
        m.literals := by
  have hended := (isEnded_header opts m.renamed.name m.target).append
    (isEnded_partsText m.renamed.blocks m.parts)
  rw [Made.text, peephole_eq_flatten, peephole_eq_flatten, hended.lines_append,
    cancelLines_append _ (ofLine?_section h.literals), List.flatten_append, Text.flatten_lines]

end Assembly

open Assembly in
/-- The literals of a program are all collected beforehand, each once and in the order in which they
are met. After that nothing adds a literal, and where a text is generated each label that code or a
symbol refers to is defined once at its end, by the five bytes of the literal meant. -/
theorem Program.literals_shared {opts : Options} {window : Int}
    (hmake : Catalog.make window Idiom.all Assignment.rules = .ok opts.catalog) {p q : Program}
    (hrename : p.rename = .ok q) (heap : Heap) {s t : Session}
    (hcollect : (collectFloats q.blocks).run.run { s with pool := .empty, breakpoints := 0 } =
      (.ok ⟨⟩, t)) :
    (t.pool.values = p.literals.eraseDups ∧ t.pool.values.Nodup) ∧
    (∀ u : Session, u.pool = t.pool →
      ((blockTexts opts heap q.blocks).run.run u).2.pool = t.pool ∧
      ∀ b ∈ q.blocks, ((symbolTexts b.decls).run.run u).2.pool = t.pool ∧
        ∀ scope code, code <:+ b.code →
          ((opts.catalog.select scope code).run.run u).2.pool = t.pool) ∧
    ∀ text u, (p.assemble opts heap).run.run s = (.ok text, u) →
      ∃ m : Made, m.IsOf opts p heap s u ∧ text =
          peephole (header opts q.name m.target ++ partsText q.blocks m.parts) ++ m.literals ∧
        List.Forall₂ (BlockPart.Shares t.pool) q.blocks m.parts ∧
        ∀ k x, t.pool.values[k]? = some x → ∃ packed line, FiveByte.encode x = .ok packed ∧
          m.literals.lines.filter (Text.startsWith (FloatPool.mark k)) = [line] ∧
          Directive.read line =
            .ok ⟨".byte", packed.bytes.map fun b => Int64.ofNat b.toNat⟩ := by
  obtain ⟨pool, rfl, hpool⟩ :=
    (collectFloats_collects q.blocks).of_run FloatPool.holds_empty hcollect
  have hliterals : q.blocks.flatMap Block.literals = p.literals :=
    (Program.rename_eq_ok_iff.mp hrename).2.literals
  rw [List.nil_append] at hpool
  have hseen : q.blocks.flatMap Block.literals ⊆ q.blocks.flatMap Block.literals :=
    List.Subset.refl _
  refine ⟨⟨hpool.values.trans (by rw [hliterals]), hpool.nodup⟩,
    fun u hu => ⟨?_, fun b hb => ?_⟩, ?_⟩
  · exact (blockTexts_keeps hpool hmake hseen u hu).1
  · have hblock : b.literals ⊆ q.blocks.flatMap Block.literals := fun x hx =>
      List.mem_flatMap.mpr ⟨b, hb, hx⟩
    obtain ⟨hdecls, hcode⟩ := List.append_subset.mp hblock
    refine ⟨(symbolTexts_keeps hpool hdecls u hu).1, fun scope code hsuffix => ?_⟩
    refine (Catalog.select_keeps hpool hmake scope (fun x hx => hcode ?_) u hu).1
    exact (hsuffix.sublist.filterMap _).subset hx
  · intro text u hrun
    obtain ⟨m, hm, htext⟩ := of_assemble_eq_ok hrun
    obtain rfl : q = m.renamed := Except.ok.inj (hrename.symm.trans hm.rename)
    obtain ⟨v, hfloats, hparts⟩ := hm.parts
    rw [hcollect] at hfloats
    cases hfloats
    obtain ⟨hu, hshares⟩ := hparts.shares hpool hmake hseen rfl
    refine ⟨m, hm, htext.trans hm.peephole_text, hshares, fun k x hk => ?_⟩
    have hsection := hm.literals
    rw [hu] at hsection
    obtain ⟨packed, hpacked, hlines⟩ := defined_once hsection hk
    exact ⟨packed, _, hpacked, hlines, read_literalLine k x packed⟩

namespace Copying

open Assembly

def half : Double := ⟨0x3fe0000000000000⟩

def minusZero : Double := ⟨0x8000000000000000⟩

def three : Double := ⟨0x4008000000000000⟩

/-- The literal of a constant is copied to a variable, and two more are pushed. -/
def block : Block where
  name := "main"
  short := "main"
  address := 0
  decls := [⟨"c", .known .float, some (.float half), 0, true⟩]
  code :=
    [{ op := .known .pushFloat, arg := some (.float half) },
     { op := .known .popVarFloat, sym := "x" },
     { op := .known .pushFloat, arg := some (.float minusZero) },
     { op := .known .pushFloat, arg := some (.int 3) }]

def program : Program where
  name := "t"
  launcher := .known .raw
  load := 0
  blocks := [block]

def pool : FloatPool := ⟨[half, minusZero, three]⟩

def copied : Fragment :=
  ⟨"float var = const", copyFloat (.name (FloatPool.label 0)) (.name "x"), 2, false⟩

def pushed (k : Nat) : Fragment :=
  ⟨"fallback PUSH_FLOAT", Fallback.addressed "push_float" (.name (FloatPool.label k)), 1, false⟩

def part : BlockPart := ⟨"\tc = tg_const_float_0\n", [], [copied, pushed 1, pushed 2]⟩

theorem collectFloats_run (s : Session) : (collectFloats program.blocks).run.run
    { s with pool := .empty, breakpoints := 0 } = (.ok ⟨⟩, { s with pool, breakpoints := 0 }) := by
  have hcollects := collectFloats_collects program.blocks
  obtain ⟨t, ht⟩ := hcollects.exists_run (by decide) { s with pool := .empty, breakpoints := 0 }
  obtain ⟨found, rfl, hfound⟩ := hcollects.of_run FloatPool.holds_empty ht
  have hvalues : found.values = pool.values := hfound.values.trans (by decide)
  obtain rfl : found = pool := congrArg FloatPool.mk hvalues
  exact ht

theorem made_isOf : ∃ literals u, Made.IsOf .standard program [] .start
    ⟨program, ⟨.known .raw, rawLoad⟩, [part], literals⟩ u := by
  have htakes : Catalog.standard.Takes (some block.short) block.code { Session.start with pool }
      part.fragments [] { Session.start with pool } := .cons rfl (.cons rfl (.cons rfl (.nil _ _)))
  have hselect := htakes.selectAll_run Catalog.isSound_standard (by decide) rfl
  have hsymbols : (symbolTexts block.decls).run.run { Session.start with pool } =
      (.ok part.symbols, { Session.start with pool }) := rfl
  have hpart : part.IsOf .standard [] block { Session.start with pool } _ :=
    ⟨_, _, hsymbols, variableTexts_stored (by decide) _ _, hselect, rfl⟩
  exact ⟨_, _, by decide, by decide, ⟨_, collectFloats_run _, .cons hpart (.nil _)⟩, rfl⟩

end Copying

open Assembly Copying in
theorem Program.literals_shared_copying :
    program.literals = [half, half, minusZero, three] ∧
    ∃ t : Session, (collectFloats program.blocks).run.run .start = (.ok ⟨⟩, t) ∧
      t.pool.values = [half, minusZero, three] ∧
      ∃ text u, (program.assemble .standard []).run.run .start = (.ok text, u) ∧
        ∃ m : Made, ∃ front, text = front ++ m.literals ∧
          List.Forall₂ (BlockPart.Shares t.pool) program.blocks m.parts ∧
          ∃ line, m.literals.lines.filter (Text.startsWith (FloatPool.mark 2)) = [line] ∧
            Directive.read line = .ok ⟨".byte", [0x82, 0x40, 0, 0, 0]⟩ := by
  obtain ⟨literals, u, hmade⟩ := made_isOf
  have hmake : Catalog.make Catalog.defaultWindow Idiom.all Assignment.rules =
      .ok Options.standard.catalog := Catalog.make_all _
  have hrename : program.rename = .ok program := by decide
  obtain ⟨⟨hvalues, -⟩, -, hassemble⟩ :=
    Program.literals_shared hmake hrename [] (collectFloats_run .start)
  obtain ⟨m, -, htext, hshares, hlines⟩ := hassemble _ u hmade.assemble_run
  obtain ⟨packed, line, hpacked, hline, hread⟩ := hlines 2 three rfl
  obtain rfl : packed = ⟨0x82, 0x40, 0, 0, 0⟩ := Except.ok.inj (hpacked.symm.trans (by decide))
  exact ⟨by decide, _, collectFloats_run .start, hvalues.trans (by decide), _, u,
    hmade.assemble_run, m, _, htext, hshares, line, hline, hread⟩

end Stack6502
