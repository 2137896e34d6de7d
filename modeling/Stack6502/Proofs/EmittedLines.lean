import Stack6502.Lower.Selection
import Stack6502.Proofs.Characters

/-!
# The lines of fragments

The text of a fragment is whole lines, so the lines of a block are those of its fragments one after
another. A jump to a name is a line of its own, indented, with the name as its operand.
-/
namespace Stack6502

namespace Text

theorem lines_append_newline (t u : Text) :
    lines (t ++ newline :: u) = lines (t ++ [newline]) ++ lines u := by
  induction t with
  | nil => simp [lines]
  | cons b t ih =>
    by_cases hb : b = newline
    · simp [lines, hb, ih]
    · rw [List.cons_append, List.cons_append, lines, lines, if_neg hb, if_neg hb, ih]
      cases hlines : lines (t ++ [newline]) with
      | nil =>
        have hflatten := flatten_lines (t ++ [newline])
        simp [hlines] at hflatten
      | cons line rest => rfl

theorem lines_of_notMem {t : Text} (h : newline ∉ t) :
    lines (t ++ [newline]) = [t ++ [newline]] := by
  induction t with
  | nil => rfl
  | cons b t ih =>
    obtain ⟨hb, ht⟩ := not_or.mp (mt List.mem_cons.mpr h)
    rw [List.cons_append, lines, if_neg (Ne.symm hb), ih ht]

def IsEnded (t : Text) : Prop := t = [] ∨ ∃ u, t = u ++ [newline]

theorem IsEnded.append {t u : Text} (ht : IsEnded t) (hu : IsEnded u) : IsEnded (t ++ u) := by
  rcases hu with rfl | ⟨v, rfl⟩
  · rwa [List.append_nil]
  · exact .inr ⟨t ++ v, (List.append_assoc ..).symm⟩

theorem IsEnded.flatMap {α : Type} {l : List α} {f : α → Text} (h : ∀ a ∈ l, IsEnded (f a)) :
    IsEnded (l.flatMap f) := by
  induction l with
  | nil => exact .inl rfl
  | cons a l ih =>
    obtain ⟨ha, hl⟩ := List.forall_mem_cons.mp h
    exact ha.append (ih hl)

theorem IsEnded.lines_append {t : Text} (h : IsEnded t) (u : Text) :
    lines (t ++ u) = lines t ++ lines u := by
  rcases h with rfl | ⟨v, rfl⟩
  · rfl
  · rw [List.append_assoc]
    exact lines_append_newline v u

theorem IsEnded.lines_flatMap {α : Type} {l : List α} {f : α → Text}
    (h : ∀ a ∈ l, IsEnded (f a)) : lines (l.flatMap f) = l.flatMap fun a => lines (f a) := by
  induction l with
  | nil => rfl
  | cons a l ih =>
    obtain ⟨ha, hl⟩ := List.forall_mem_cons.mp h
    rw [List.flatMap_cons, List.flatMap_cons, ha.lines_append, ih hl]

theorem splitOn_of_notMem {sep : UInt8} {t : Text} (h : sep ∉ t) : splitOn sep t = [t] := by
  induction t with
  | nil => rfl
  | cons b t ih =>
    obtain ⟨hb, ht⟩ := not_or.mp (mt List.mem_cons.mpr h)
    rw [splitOn, ih ht]
    exact if_neg (Ne.symm hb)

end Text

namespace Fragment

/-- What becomes of a piece of the text of a fragment. -/
theorem isEnded_pieceLine (piece : Text) : Text.IsEnded (if piece.trim.isEmpty then []
    else (if piece.head? == some Text.space then [Text.tab] else []) ++ piece.trim ++
      [Text.newline]) := by
  split
  · exact .inl rfl
  · exact .inr ⟨_, rfl⟩

theorem isEnded_pieceLines (t : Text) : (pieceLines t).IsEnded :=
  .flatMap fun piece _ => isEnded_pieceLine piece

theorem isEnded_output (f : Fragment) : f.output.IsEnded := by
  unfold output
  dsimp only
  split
  · split
    · exact .inl rfl
    · exact .inr ⟨_, rfl⟩
  · exact isEnded_pieceLines _

theorem lines_output (fs : List Fragment) :
    Text.lines (fs.flatMap output) = fs.flatMap (·.output.lines) :=
  Text.IsEnded.lines_flatMap fun f _ => f.isEnded_output

end Fragment

/-! ### Texts in ASCII -/

namespace Text

/-- A character that stands for itself in a line: in ASCII, visible or a space, and not the bar that
divides lines. -/
def isInline (b : UInt8) : Bool := 0x20 ≤ b && b < 0x7f && b != byte '|'

theorem not_isInline_newline : ¬ isInline newline := by decide

theorem not_isInline_bar : ¬ isInline (byte '|') := by decide

theorem isBlank_ascii : ∀ n < 128, 0x20 < n → isBlank (Char.ofNat n) = false := by
  decide

theorem toNat_lt_of_isInline {b : UInt8} (h : isInline b) : b.toNat < 128 := by
  simp only [isInline, Bool.and_eq_true, decide_eq_true_eq] at h
  have hlt : b.toNat < 0x7f := UInt8.lt_iff_toNat_lt.mp h.1.2
  omega

theorem pieces_ascii {t : Text} (h : ∀ b ∈ t, b.toNat < 128) :
    pieces t = t.map fun b => .char (Char.ofNat b.toNat) := by
  induction t with
  | nil => rfl
  | cons b t ih =>
    obtain ⟨hb, ht⟩ := List.forall_mem_cons.mp h
    have hlt : b < 0x80 := UInt8.lt_iff_toNat_lt.mpr hb
    have hfirst : firstChar? (b :: t) = some (Char.ofNat b.toNat, 1) := by
      unfold firstChar?
      exact if_pos hlt
    rw [List.map_cons, ← ih ht, pieces, piecesFrom, hfirst]
    rfl

theorem ofPieces_ascii {t : Text} (h : ∀ b ∈ t, b.toNat < 128) :
    ofPieces (t.map fun b => .char (Char.ofNat b.toNat)) = t := by
  rw [← pieces_ascii h, ofPieces_pieces]

theorem space_lt_of_isInline {b : UInt8} (h : isInline b) (hne : b ≠ space) : 0x20 < b.toNat := by
  simp only [isInline, Bool.and_eq_true, decide_eq_true_eq] at h
  have hle : 0x20 ≤ b.toNat := UInt8.le_iff_toNat_le.mp h.1.1
  have hne' : b.toNat ≠ 0x20 := fun heq => hne (UInt8.toNat_inj.mp heq)
  omega

theorem toNat_of_mem_toDigits {n : Nat} {c : Char} (h : c ∈ Nat.toDigits 10 n) :
    0x30 ≤ c.toNat ∧ c.toNat ≤ 0x39 ∧ (byte c).toNat = c.toNat := by
  have hdigit := Nat.isDigit_of_mem_toDigits (by decide) (by decide) h
  simp only [Char.isDigit, Bool.and_eq_true, decide_eq_true_eq] at hdigit
  have hlow : 0x30 ≤ c.toNat := UInt32.le_iff_toNat_le.mp hdigit.1
  have hhigh : c.toNat ≤ 0x39 := UInt32.le_iff_toNat_le.mp hdigit.2
  have hlt : c.toNat < 256 := Nat.lt_of_le_of_lt hhigh (by decide)
  exact ⟨hlow, hhigh, UInt8.toNat_ofNat_of_lt' hlt⟩

/-- A number is written in digits. -/
theorem toNat_of_mem_ofNat {n : Nat} {b : UInt8} (h : b ∈ ofNat n) :
    0x30 ≤ b.toNat ∧ b.toNat ≤ 0x39 := by
  obtain ⟨c, hc, rfl⟩ := List.mem_map.mp h
  obtain ⟨hlow, hhigh, hbyte⟩ := toNat_of_mem_toDigits hc
  rw [hbyte]
  exact ⟨hlow, hhigh⟩

theorem ofNat_injective {m n : Nat} (h : ofNat m = ofNat n) : m = n := by
  have hchars (n : Nat) : (ofNat n).map (fun b => Char.ofNat b.toNat) = Nat.toDigits 10 n := by
    have hid : ∀ c ∈ Nat.toDigits 10 n, Char.ofNat (byte c).toNat = c := fun c hc => by
      rw [(toNat_of_mem_toDigits hc).2.2, Char.ofNat_toNat]
    rw [ofNat, ofDigits, List.map_map]
    exact (List.map_congr_left hid).trans (List.map_id _)
  rw [← Nat.ofDigitChars_toDigits (b := 10) (n := m) (by decide) (by decide), ← hchars, h, hchars,
    Nat.ofDigitChars_toDigits (by decide) (by decide)]

/-- A text with nothing blank at its ends is what remains of it after spaces. -/
theorem trim_append {lead t : Text} (hlead : ∀ b ∈ lead, b = space) (ht : ∀ b ∈ t, b.toNat < 128)
    (hne : t ≠ []) (hhead : 0x20 < (t.head hne).toNat) (hlast : 0x20 < (t.getLast hne).toNat) :
    trim (lead ++ t) = t := by
  have hvisible : ∀ b ∈ t, 0x20 < b.toNat → ¬ (Piece.char (Char.ofNat b.toNat)).isBlank := by
    intro b hb hb'
    rw [Piece.isBlank, isBlank_ascii b.toNat (ht b hb) hb']
    exact Bool.false_ne_true
  have hblank : ∀ piece ∈ lead.map fun b => Piece.char (Char.ofNat b.toNat), piece.isBlank := by
    intro piece hpiece
    obtain ⟨b, hb, rfl⟩ := List.mem_map.mp hpiece
    rw [hlead b hb]
    rfl
  have hall : ∀ b ∈ lead ++ t, b.toNat < 128 := by
    intro b hb
    rcases List.mem_append.mp hb with hb | hb
    · rw [hlead b hb]
      decide
    · exact ht b hb
  have hfront : (pieces (lead ++ t)).dropWhile Piece.isBlank =
      t.map fun b => .char (Char.ofNat b.toNat) := by
    rw [pieces_ascii hall, List.map_append, List.dropWhile_append_of_pos hblank,
      List.dropWhile_eq_self_iff]
    intro hl
    rw [List.getElem_map, ← List.head_eq_getElem hne]
    exact hvisible _ (List.head_mem hne) hhead
  have hback : List.rdropWhile Piece.isBlank (t.map fun b => .char (Char.ofNat b.toNat)) =
      t.map fun b => .char (Char.ofNat b.toNat) := by
    rw [List.rdropWhile_eq_self_iff]
    intro hl
    rw [List.getLast_map]
    exact hvisible _ (List.getLast_mem hne) hlast
  rw [trim, hfront]
  exact (congrArg ofPieces hback).trans (ofPieces_ascii ht)

end Text

namespace Fragment

/-- Text without newlines and bars is one line, indented if it starts with a space. -/
theorem pieceLines_of_notMem {t : Text} (hnewline : Text.newline ∉ t) (hbar : Text.byte '|' ∉ t)
    (hne : t.trim ≠ []) : pieceLines t =
      (if t.head? = some Text.space then [Text.tab] else []) ++ t.trim ++ [Text.newline] := by
  have hcontains : t.contains Text.newline = false := by simpa using hnewline
  simp only [pieceLines, hcontains, Bool.false_eq_true, if_false]
  rw [Text.splitOn_of_notMem hbar]
  simp [hne]

/-- Text that follows a space is one indented line. -/
theorem pieceLines_space_cons {t : Text} (h : ∀ b ∈ t, Text.isInline b) (hne : t ≠ [])
    (hhead : t.head hne ≠ Text.space) (hlast : t.getLast hne ≠ Text.space) :
    pieceLines (Text.space :: t) = Text.tab :: (t ++ [Text.newline]) := by
  have hinline : ∀ b ∈ Text.space :: t, Text.isInline b := List.forall_mem_cons.mpr ⟨rfl, h⟩
  have htrim : Text.trim (Text.space :: t) = t := by
    have hlead : ∀ b ∈ [Text.space], b = Text.space := by simp
    exact Text.trim_append hlead (fun b hb => Text.toNat_lt_of_isInline (h b hb)) hne
      (Text.space_lt_of_isInline (h _ (List.head_mem hne)) hhead)
      (Text.space_lt_of_isInline (h _ (List.getLast_mem hne)) hlast)
  rw [pieceLines_of_notMem, htrim]
  · rfl
  · exact fun hmem => Text.not_isInline_newline (hinline _ hmem)
  · exact fun hmem => Text.not_isInline_bar (hinline _ hmem)
  · rwa [htrim]

end Fragment

theorem Mnemonic.isInline_name (m : Mnemonic) :
    ∀ b ∈ Text.ofString m.name, Text.isInline b ∧ b ≠ Text.space := by
  have hall : (Text.ofString m.name).all fun b => Text.isInline b && b != Text.space := by
    cases m <;> decide
  intro b hb
  simpa using List.all_eq_true.mp hall b hb

theorem Mnemonic.name_ne_nil (m : Mnemonic) : Text.ofString m.name ≠ [] := by
  cases m <;> decide

/-- A jump to a name is one line, with the name as its operand. -/
theorem Fragment.lines_jump (name : Text) (m : Mnemonic) {sym : Text} (hne : sym ≠ [])
    (hsym : ∀ b ∈ sym, Text.isInline b ∧ b ≠ Text.space) :
    (⟨name, [[.instr m (.direct (.name sym))]], 1, false⟩ : Fragment).output.lines =
      [Text.tab :: (Text.ofString m.name ++ Text.ofString "  " ++ sym ++ [Text.newline])] := by
  have htext : Code.text [[.instr m (.direct (.name sym))]] =
      Text.space :: (Text.ofString m.name ++ Text.ofString "  " ++ sym) := by
    have hline : Line.text " " (.instr m (.direct (.name sym))) =
        Text.space :: (Text.ofString m.name ++ Text.ofString "  " ++ sym) := rfl
    simp [Code.text, Code.groupText, Text.join, hline]
  have hgap : (Text.ofString "  ").all Text.isInline := by decide
  have hinline : ∀ b ∈ Text.ofString m.name ++ Text.ofString "  " ++ sym, Text.isInline b := by
    intro b hb
    rcases List.mem_append.mp hb with hb | hb
    · rcases List.mem_append.mp hb with hb | hb
      · exact (m.isInline_name b hb).1
      · exact List.all_eq_true.mp hgap b hb
    · exact (hsym b hb).1
  have hne' : Text.ofString m.name ++ Text.ofString "  " ++ sym ≠ [] :=
    List.append_ne_nil_of_right_ne_nil _ hne
  have hhead : (Text.ofString m.name ++ Text.ofString "  " ++ sym).head hne' ≠ Text.space := by
    have hmem := List.head_mem m.name_ne_nil
    simpa [List.head_append, m.name_ne_nil] using (m.isInline_name _ hmem).2
  have hlast : (Text.ofString m.name ++ Text.ofString "  " ++ sym).getLast hne' ≠ Text.space := by
    rw [List.getLast_append_of_ne_nil _ hne]
    exact (hsym _ (List.getLast_mem hne)).2
  have hnewline : Text.newline ∉
      Text.tab :: (Text.ofString m.name ++ Text.ofString "  " ++ sym) := by
    rw [List.mem_cons, not_or]
    exact ⟨by decide, fun hmem => Text.not_isInline_newline (hinline _ hmem)⟩
  have houtput := pieceLines_space_cons hinline hne' hhead hlast
  rw [output, htext]
  exact (congrArg Text.lines houtput).trans (Text.lines_of_notMem hnewline)

end Stack6502
