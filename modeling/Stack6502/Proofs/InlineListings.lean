import Stack6502.Proofs.InstrGrammar
import Stack6502.Proofs.StringReadBack

/-!
# Inline assembly in listings

Inline assembly is read from the rest of its opcode's line, but it is listed below the opcode, on
indented lines of its own. The line break then belongs to what stands before the first space, and no
opcode has a line break in its name. So a listing is read again only if the assembly is empty,
though the same text behind a space is read for what it is.
-/
namespace Stack6502

namespace Text

/-! ### Blanks at the end of a text -/

def IsBlank (t : Text) : Prop := ∀ p ∈ pieces t, p.isBlank

section Blank

variable {t u w : Text} {b : UInt8}

theorem isBlank_nil : IsBlank [] := by
  rintro p ⟨⟩

theorem isBlank_append_cons (hb : b.toNat < 128) (t u : Text) :
    IsBlank (t ++ b :: u) ↔ IsBlank t ∧ isBlank (Char.ofNat b.toNat) ∧ IsBlank u := by
  unfold IsBlank
  rw [pieces_append (isSeam_cons_ascii hb u), pieces_cons_ascii hb, List.forall_mem_append,
    List.forall_mem_cons]
  rfl

theorem IsTrimmed.not_isBlank (h : IsTrimmed t) (hne : t ≠ []) : ¬ IsBlank t := by
  obtain ⟨p, ps, hpieces⟩ := List.exists_cons_of_ne_nil (pieces_ne_nil hne)
  intro hblank
  have hvisible : p.isBlank = false := h.head p (by rw [hpieces]; rfl)
  have hp := hblank p (by rw [hpieces]; exact List.mem_cons_self ..)
  rw [hvisible] at hp
  cases hp

theorem ofPieces_append (ps qs : List Piece) : ofPieces (ps ++ qs) = ofPieces ps ++ ofPieces qs :=
  List.flatMap_append

theorem bytes_ascii (hb : b.toNat < 128) : (Piece.char (Char.ofNat b.toNat)).bytes = [b] :=
  utf8EncodeChar_one hb

theorem isTrimmed_ascii (h : (b :: t).all (·.toNat < 128)) (hfirst : 0x20 < b.toNat)
    (hlast : (b :: t).getLast?.all (0x20 < ·.toNat)) : IsTrimmed (b :: t) := by
  have hascii : ∀ c ∈ b :: t, c.toNat < 128 := by simpa using h
  constructor
  · rw [pieces_ascii hascii]
    rintro p ⟨⟩
    exact isBlank_ascii b.toNat (hascii b (List.mem_cons_self ..)) hfirst
  · rw [pieces_ascii hascii, List.getLast?_map]
    intro p hp
    obtain ⟨c, hc, rfl⟩ := Option.map_eq_some_iff.mp hp
    rw [hc] at hlast
    exact isBlank_ascii c.toNat (hascii c (List.mem_of_mem_getLast? hc)) (by simpa using hlast)

/-- Blanks after a word are trimmed. -/
theorem trim_append_of_isBlank (hw : IsWord w) (hb : b.toNat < 128)
    (hblank : isBlank (Char.ofNat b.toNat)) (hu : IsBlank u) : trim (w ++ b :: u) = w := by
  have hback : ∀ p ∈ (pieces (b :: u)).reverse, p.isBlank := by
    intro p hp
    exact (isBlank_append_cons hb [] u).mpr ⟨isBlank_nil, hblank, hu⟩ p (List.mem_reverse.mp hp)
  have hfront : ∀ p ∈ (pieces w ++ pieces (b :: u)).head?, p.isBlank = false := by
    rw [List.head?_append_of_ne_nil _ (pieces_ne_nil hw.1)]
    exact hw.isTrimmed.head
  have hlast : ∀ p ∈ (pieces w).reverse.head?, p.isBlank = false := by
    rw [List.head?_reverse]
    exact hw.isTrimmed.last
  rw [trim, pieces_append (isSeam_cons_ascii hb u), dropWhile_of_head? hfront, List.reverse_append,
    List.dropWhile_append_of_pos hback, dropWhile_of_head? hlast, List.reverse_reverse,
    ofPieces_pieces]

/-- If something follows that is not blank, then a word and what comes right after it stay. -/
theorem exists_trim_append (hw : IsWord w) (hb : b.toNat < 128) (hu : ¬ IsBlank u) :
    ∃ v, trim (w ++ b :: u) = w ++ b :: v := by
  obtain ⟨front, middle, back, hsplit, htrim, hfront, hback, -, -⟩ := exists_trim (w ++ b :: u)
  rw [pieces_append (isSeam_cons_ascii hb u), pieces_cons_ascii hb] at hsplit
  obtain ⟨p, ps, hp⟩ := List.exists_cons_of_ne_nil (pieces_ne_nil hw.1)
  cases front with
  | cons q front =>
    -- The first piece is the word's.
    rw [hp] at hsplit
    obtain ⟨rfl, -⟩ := List.cons.inj hsplit
    have hvisible : p.isBlank = false := hw.2 p (by rw [hp]; exact List.mem_cons_self ..)
    have hblank : p.isBlank := hfront p (List.mem_cons_self ..)
    rw [hvisible] at hblank
    cases hblank
  | nil =>
    rw [List.nil_append, List.append_cons] at hsplit
    rcases List.append_eq_append_iff.mp hsplit with ⟨rest, hmiddle, -⟩ | ⟨rest, -, hrest⟩
    · refine ⟨ofPieces rest, ?_⟩
      rw [htrim, hmiddle, ofPieces_append, ofPieces_append, ofPieces_pieces, List.append_assoc]
      simp [ofPieces, bytes_ascii hb]
    · -- Otherwise all that follows would be among the blanks at the end.
      exact absurd (fun p hp => hback p (hrest ▸ List.mem_append_right _ hp)) hu

end Blank

/-- Characters below the small letters are their own upper case. -/
theorem mem_upper_of_mem {t : Text} {b : UInt8} (hb : b.toNat < 97) (h : b ∈ t) : b ∈ t.upper := by
  have hascii : b.toNat < 128 := hb.trans (by decide)
  have hmem : Char.ofNat b.toNat ∈ t.chars :=
    List.mem_map.mpr ⟨_, mem_pieces_of_mem hascii h, rfl⟩
  refine List.mem_flatMap.mpr ⟨_, hmem, ?_⟩
  rw [Opcode.upperChar_of_lt b.toNat hb, ofChar, utf8EncodeChar_one hascii]
  exact List.mem_singleton_self b

end Text

namespace Instr

open Text

/-! ### The listing of inline assembly -/

def inlineAssembly (s : Text) : Instr := { op := .known .inlineAssembly, sym := s }

def indented (s : Text) : Text :=
  tab :: s.flatMap fun b => if b = newline then [newline, tab] else [b]

theorem flatMap_listingLine_splitOn (s : Text) :
    (s.splitOn newline).flatMap (listingLine 1) = indented s ++ [newline] := by
  induction s with
  | nil => rfl
  | cons b s ih =>
    rw [splitOn]
    cases hsplit : splitOn newline s with
    | nil => simp [hsplit] at ih
    | cons first rest =>
      rw [hsplit, List.flatMap_cons] at ih
      dsimp only
      split_ifs with hb
      · rw [List.flatMap_cons, List.flatMap_cons, ih]
        simp [indented, listingLine, hb]
      · -- The tab is put before the byte instead of behind it.
        have htail := List.tail_eq_of_cons_eq (ih : tab :: _ = tab :: _)
        simp only [List.flatMap_cons, indented, listingLine, if_neg hb]
        exact congrArg (tab :: b :: ·) htail

theorem text_inlineAssembly (s : Text) : (inlineAssembly s).text =
    Text.ofString (Opcode.name .inlineAssembly) ++ newline :: indented s := by
  have hlisting : (inlineAssembly s).listing 0 = (Text.ofString (Opcode.name .inlineAssembly) ++
      newline :: indented s) ++ [newline] := by
    have hlines := flatMap_listingLine_splitOn s
    rw [List.append_assoc, List.cons_append, ← hlines, List.append_cons]
    rfl
  rw [text, hlisting, List.dropLast_concat]

theorem indented_of_notMem {s : Text} (h : newline ∉ s) : indented s = tab :: s := by
  have hsame : ∀ b ∈ s, (if b = newline then [newline, tab] else [b]) = [b] := by
    intro b hb
    exact if_neg fun heq : b = newline => h (heq ▸ hb)
  rw [indented, List.flatMap_congr hsame, List.flatMap_singleton']

theorem indented_append (s t : Text) :
    indented (s ++ newline :: t) = indented s ++ newline :: indented t := by
  simp [indented]

/-- Indenting makes nothing visible. The induction is on the length, from one line break to the
next. -/
theorem isBlank_indented_iff (s : Text) : IsBlank (indented s) ↔ IsBlank s := by
  have htab (t : Text) : IsBlank (tab :: t) ↔ IsBlank t := by
    have hblank : isBlank (Char.ofNat tab.toNat) := by decide
    have hcons := isBlank_append_cons (b := tab) (by decide) [] t
    simpa [isBlank_nil, hblank] using hcons
  induction hlength : s.length using Nat.strong_induction_on generalizing s with
  | _ n ih =>
    by_cases hmem : newline ∈ s
    · obtain ⟨u, v, rfl, hu⟩ := List.eq_append_cons_of_mem hmem
      have hlt : v.length < n := by
        rw [← hlength, List.length_append, List.length_cons]
        omega
      have hv : IsBlank (indented v) ↔ IsBlank v := ih v.length hlt v rfl
      rw [indented_append, isBlank_append_cons (by decide), isBlank_append_cons (by decide), hv,
        indented_of_notMem hu, htab]
    · rw [indented_of_notMem hmem, htab]

/-! ### Reading it again -/

section Reading

variable {s t name : Text}

theorem not_namesOpcode_of_mem {b : UInt8} (hb : b.toNat ≤ 0x20) (h : b ∈ opcodeText t)
    (op : Opcode) : ¬ NamesOpcode t op := by
  intro hname
  have hmem := mem_upper_of_mem (by omega) h
  rw [hname] at hmem
  have := ((Opcode.name_spec op.mem_all).2 b hmem).1
  omega

theorem parse_of_inlineAssembly {rest : Option Text} (hcut : t.trim.cut space = (name, rest))
    (hop : Opcode.parse? name = some .inlineAssembly) :
    parse t = .ok (inlineAssembly (rest.getD []).dropIndent) := by
  unfold parse
  rw [hcut]
  dsimp only
  rw [hop]
  rfl

theorem dropIndent_of_isTrimmed (h : s.IsTrimmed) : s.dropIndent = s := by
  refine dropWhile_of_head? fun b hb => ?_
  obtain ⟨rest, rfl⟩ := List.head?_eq_some_iff.mp hb
  have hvisible := h.head
  cases hindent : b == space || b == tab with
  | false => rfl
  | true =>
    rcases Bool.or_eq_true_iff.mp hindent with hb | hb
    · rw [beq_iff_eq.mp hb, pieces_cons_ascii (by decide)] at hvisible
      exact absurd (hvisible _ rfl) (by decide)
    · rw [beq_iff_eq.mp hb, pieces_cons_ascii (by decide)] at hvisible
      exact absurd (hvisible _ rfl) (by decide)

/-- Behind a space on its opcode's line, inline assembly is read as it stands. -/
theorem parse_sameLine (h : s.IsTrimmed) (hne : s ≠ []) :
    parse (Text.ofString (Opcode.name .inlineAssembly) ++ space :: s) =
      .ok (inlineAssembly s) := by
  rw [parse_of_inlineAssembly (cut_trim_append (Opcode.mem_all _) h hne) (Opcode.parse?_ofName _),
    Option.getD_some, dropIndent_of_isTrimmed h]

/-- Blank assembly is trimmed with the line break before it. -/
theorem parse_listing_of_isBlank (h : s.IsBlank) :
    parse (inlineAssembly s).text = .ok (inlineAssembly []) := by
  have hmem := Opcode.mem_all .inlineAssembly
  have htrim : (inlineAssembly s).text.trim = Text.ofString (Opcode.name .inlineAssembly) := by
    rw [text_inlineAssembly]
    exact trim_append_of_isBlank (Opcode.isWord_name hmem) (by decide) (by decide)
      ((isBlank_indented_iff s).mpr h)
  have hcut := cut_of_notMem (Opcode.space_notMem_name hmem)
  rw [← htrim] at hcut
  rw [parse_of_inlineAssembly hcut (htrim ▸ Opcode.parse?_ofName _)]
  rfl

/-- The line break before anything visible is taken for a part of the opcode. -/
theorem parse_listing_of_not_isBlank (h : ¬ s.IsBlank) : parse (inlineAssembly s).text =
    .error (.unknownOpcode (opcodeText (inlineAssembly s).text)) := by
  have hmem := Opcode.mem_all .inlineAssembly
  obtain ⟨v, hv⟩ := exists_trim_append (Opcode.isWord_name hmem) (b := newline) (by decide)
    (mt (isBlank_indented_iff s).mp h)
  have hname : ∀ b ∈ Text.ofString (Opcode.name .inlineAssembly), (b != space) = true := by
    intro b hb
    exact bne_iff_ne.mpr fun heq => Opcode.space_notMem_name hmem (heq ▸ hb)
  have hbreak : newline ∈ opcodeText (inlineAssembly s).text := by
    rw [opcodeText, text_inlineAssembly, hv, fst_cut_eq_takeWhile,
      List.takeWhile_append_of_pos hname, List.takeWhile_cons_of_pos (by decide)]
    simp
  exact parse_eq_error_of_unknown (not_namesOpcode_of_mem (by decide) hbreak)

end Reading

/-- Inline assembly is read again from its listing only if there is none. With no white space at its
ends, on one line or on many, the listing is refused for its opcode, while the same text after the
opcode and a space is read as it stands. -/
theorem inlineAssembly_reads_back_iff (s : Text) :
    (parse (inlineAssembly s).text = .ok (inlineAssembly s) ↔ s = []) ∧
    (s.IsTrimmed → s ≠ [] →
      parse (inlineAssembly s).text =
        .error (.unknownOpcode (opcodeText (inlineAssembly s).text)) ∧
      parse (Text.ofString (Opcode.name .inlineAssembly) ++ space :: s) =
        .ok (inlineAssembly s)) := by
  refine ⟨?_, fun htrimmed hne =>
    ⟨parse_listing_of_not_isBlank (htrimmed.not_isBlank hne), parse_sameLine htrimmed hne⟩⟩
  by_cases hblank : s.IsBlank
  · rw [parse_listing_of_isBlank hblank]
    constructor
    · intro hsame
      exact (congrArg Instr.sym (Except.ok.inj hsame)).symm
    · rintro rfl
      rfl
  · rw [parse_listing_of_not_isBlank hblank]
    refine iff_of_false (by simp) ?_
    rintro rfl
    exact hblank isBlank_nil

theorem inlineAssembly_reads_back_iff_load :
    let s : Text := "lda  #0"
    s.IsTrimmed ∧ s ≠ [] ∧
      parse (inlineAssembly s).text =
        .error (.unknownOpcode (opcodeText (inlineAssembly s).text)) ∧
      parse (Text.ofString (Opcode.name .inlineAssembly) ++ space :: s) =
        .ok (inlineAssembly s) := by
  intro s
  have htrimmed : s.IsTrimmed := isTrimmed_ascii (by decide) (by decide) (by decide)
  exact ⟨htrimmed, by decide, (inlineAssembly_reads_back_iff s).2 htrimmed (by decide)⟩

/-- One instruction on one line is lost. -/
theorem inlineAssembly_not_read_back :
    let s : Text := "nop"
    newline ∉ s ∧ s.IsTrimmed ∧ s ≠ [] ∧
      (inlineAssembly s).text = Text.ofString "INLINE_ASSEMBLY\n\tnop" ∧
      parse (inlineAssembly s).text ≠ .ok (inlineAssembly s) := by
  intro s
  have htrimmed : s.IsTrimmed := isTrimmed_ascii (by decide) (by decide) (by decide)
  refine ⟨by decide, htrimmed, by decide, by decide, ?_⟩
  rw [parse_listing_of_not_isBlank (htrimmed.not_isBlank (by decide))]
  simp

end Instr

end Stack6502
