import Mathlib.Data.List.DropRight
import Mathlib.Data.List.TakeWhile
import Stack6502.Text.Blank

/-!
# Characters lose no bytes

The bytes of the pieces of a text are the text again. So trimming takes bytes away at the ends and
makes no new ones.
-/
namespace Stack6502.Text

theorem toNat_val_ofNat {n : Nat} (h : n.isValidChar) : (Char.ofNat n).val.toNat = n := by
  rw [Char.ofNat, dif_pos h]
  rfl

theorem ofNat_eq_of_toNat {n : Nat} {b : UInt8} (h : n = b.toNat) : UInt8.ofNat n = b := by
  rw [h, UInt8.ofNat_toNat]

/-! ### Characters of one to four bytes -/

section Bytes

variable {b c d e : UInt8}

theorem utf8EncodeChar_one (hb : b.toNat < 0x80) :
    String.utf8EncodeChar (Char.ofNat b.toNat) = [b] := by
  have hvalid : b.toNat.isValidChar := .inl (by omega)
  unfold String.utf8EncodeChar
  simp only [toNat_val_ofNat hvalid]
  rw [if_pos (by omega), UInt8.ofNat_toNat]

theorem utf8EncodeChar_two (hb : 0xc2 ≤ b.toNat ∧ b.toNat < 0xe0)
    (hc : 0x80 ≤ c.toNat ∧ c.toNat ≤ 0xbf) :
    String.utf8EncodeChar (Char.ofNat (b.toNat % 32 * 64 + tailBits c)) = [b, c] := by
  unfold tailBits
  have hvalid : (b.toNat % 32 * 64 + c.toNat % 64).isValidChar := .inl (by omega)
  unfold String.utf8EncodeChar
  simp only [toNat_val_ofNat hvalid]
  rw [if_neg (by omega), if_pos (by omega)]
  congr 2
  all_goals exact ofNat_eq_of_toNat (by omega)

theorem utf8EncodeChar_three (hb : 0xe0 ≤ b.toNat ∧ b.toNat < 0xf0)
    (hc : 0x80 ≤ c.toNat ∧ c.toNat ≤ 0xbf) (hd : 0x80 ≤ d.toNat ∧ d.toNat ≤ 0xbf)
    (hlong : b.toNat = 0xe0 → 0xa0 ≤ c.toNat) (hsurrogate : b.toNat = 0xed → c.toNat ≤ 0x9f) :
    String.utf8EncodeChar (Char.ofNat ((b.toNat % 16 * 64 + tailBits c) * 64 + tailBits d)) =
      [b, c, d] := by
  unfold tailBits
  have hvalid : ((b.toNat % 16 * 64 + c.toNat % 64) * 64 + d.toNat % 64).isValidChar := by
    by_cases hlow : b.toNat ≤ 0xed
    · exact .inl (by omega)
    · exact .inr (by omega)
  unfold String.utf8EncodeChar
  simp only [toNat_val_ofNat hvalid]
  rw [if_neg (by omega), if_neg (by omega), if_pos (by omega)]
  congr 3
  all_goals exact ofNat_eq_of_toNat (by omega)

theorem utf8EncodeChar_four (hb : 0xf0 ≤ b.toNat ∧ b.toNat ≤ 0xf4)
    (hc : 0x80 ≤ c.toNat ∧ c.toNat ≤ 0xbf) (hd : 0x80 ≤ d.toNat ∧ d.toNat ≤ 0xbf)
    (he : 0x80 ≤ e.toNat ∧ e.toNat ≤ 0xbf) (hlong : b.toNat = 0xf0 → 0x90 ≤ c.toNat)
    (hhigh : b.toNat = 0xf4 → c.toNat ≤ 0x8f) :
    String.utf8EncodeChar (Char.ofNat
        (((b.toNat % 8 * 64 + tailBits c) * 64 + tailBits d) * 64 + tailBits e)) =
      [b, c, d, e] := by
  unfold tailBits
  have hvalid : (((b.toNat % 8 * 64 + c.toNat % 64) * 64 + d.toNat % 64) * 64 +
      e.toNat % 64).isValidChar := .inr (by omega)
  unfold String.utf8EncodeChar
  simp only [toNat_val_ofNat hvalid]
  rw [if_neg (by omega), if_neg (by omega), if_neg (by omega)]
  congr 4
  all_goals exact ofNat_eq_of_toNat (by omega)

end Bytes

/-- The ranges for what follows a first byte leave out what is no character. -/
theorem of_lead_eq_some {b low high : UInt8} {more : Nat} (h : lead b = some ⟨more, low, high⟩) :
    0x80 ≤ low.toNat ∧ high.toNat ≤ 0xbf ∧
    (more = 1 → 0xc2 ≤ b.toNat ∧ b.toNat < 0xe0) ∧
    (more = 2 → 0xe0 ≤ b.toNat ∧ b.toNat < 0xf0 ∧ (b.toNat = 0xe0 → 0xa0 ≤ low.toNat) ∧
      (b.toNat = 0xed → high.toNat ≤ 0x9f)) ∧
    (more = 3 → 0xf0 ≤ b.toNat ∧ b.toNat ≤ 0xf4 ∧ (b.toNat = 0xf0 → 0x90 ≤ low.toNat) ∧
      (b.toNat = 0xf4 → high.toNat ≤ 0x8f)) := by
  unfold lead at h
  simp only [UInt8.lt_iff_toNat_lt, ← UInt8.toNat_inj, UInt8.reduceToNat] at h
  split_ifs at h
  all_goals
    cases h
    simp only [UInt8.reduceToNat]
    omega

theorem isTail_iff {b : UInt8} : isTail b ↔ 0x80 ≤ b.toNat ∧ b.toNat ≤ 0xbf := by
  simp [isTail, UInt8.le_iff_toNat_le]

/-- The character at the start of a text is made of the bytes there. -/
theorem of_firstChar?_eq_some {t : Text} {c : Char} {n : Nat} (h : firstChar? t = some (c, n)) :
    ∃ rest, t = String.utf8EncodeChar c ++ rest ∧ (String.utf8EncodeChar c).length = n := by
  revert h
  fun_cases firstChar? t with
  | case2 b t hb =>
    rintro ⟨⟩
    rw [utf8EncodeChar_one (UInt8.lt_iff_toNat_lt.mp hb)]
    exact ⟨t, rfl, rfl⟩
  | case3 b _ low high c t hlead hrange =>
    rintro ⟨⟩
    obtain ⟨hlow, hhigh, htwo, -, -⟩ := of_lead_eq_some hlead
    simp only [Bool.and_eq_true, decide_eq_true_eq, UInt8.le_iff_toNat_le] at hrange
    rw [utf8EncodeChar_two (htwo rfl) (by omega)]
    exact ⟨t, rfl, rfl⟩
  | case5 b _ low high c d t hlead hrange =>
    rintro ⟨⟩
    obtain ⟨hlow, hhigh, -, hthree, -⟩ := of_lead_eq_some hlead
    obtain ⟨hb, hb', hlong, hsurrogate⟩ := hthree rfl
    simp only [Bool.and_eq_true, decide_eq_true_eq, UInt8.le_iff_toNat_le, isTail_iff] at hrange
    rw [utf8EncodeChar_three ⟨hb, hb'⟩ (by omega) hrange.2 (by omega) (by omega)]
    exact ⟨t, rfl, rfl⟩
  | case7 b _ low high c d e t hlead hrange =>
    rintro ⟨⟩
    obtain ⟨hlow, hhigh, -, -, hfour⟩ := of_lead_eq_some hlead
    obtain ⟨hb, hb', hlong, hmax⟩ := hfour rfl
    simp only [Bool.and_eq_true, decide_eq_true_eq, UInt8.le_iff_toNat_le, isTail_iff] at hrange
    rw [utf8EncodeChar_four ⟨hb, hb'⟩ (by omega) hrange.1.2 hrange.2 (by omega) (by omega)]
    exact ⟨t, rfl, rfl⟩
  | _ => rintro ⟨⟩

/-- The text after its first character. -/
theorem eq_append_drop_of_firstChar? {b : UInt8} {t : Text} {c : Char} {n : Nat}
    (h : firstChar? (b :: t) = some (c, n)) :
    b :: t = String.utf8EncodeChar c ++ t.drop (n - 1) := by
  obtain ⟨rest, ht, rfl⟩ := of_firstChar?_eq_some h
  have hpos : 0 < (String.utf8EncodeChar c).length := by
    rw [String.length_utf8EncodeChar]
    exact c.utf8Size_pos
  have hdrop : (b :: t).drop ((String.utf8EncodeChar c).length) = rest := by
    rw [ht, List.drop_left]
  rw [← Nat.sub_add_cancel hpos, List.drop_succ_cons] at hdrop
  rw [hdrop, ht]

theorem flatMap_piecesFrom (skip : Nat) (t : Text) :
    (piecesFrom skip t).flatMap Piece.bytes = t.drop skip := by
  fun_induction piecesFrom skip t with
  | case1 => simp
  | case2 skip b t ih => exact ih
  | case3 b t c n hfirst ih =>
    rw [List.flatMap_cons, ih]
    exact (eq_append_drop_of_firstChar? hfirst).symm
  | case4 b t hfirst ih =>
    rw [List.flatMap_cons, ih]
    rfl

/-- Nothing is lost. -/
theorem ofPieces_pieces (t : Text) : ofPieces (pieces t) = t := flatMap_piecesFrom 0 t

theorem trim_infix (t : Text) : trim t <:+: t := by
  have hpieces : (((pieces t).dropWhile Piece.isBlank).reverse.dropWhile Piece.isBlank).reverse <:+:
      pieces t :=
    (List.rdropWhile_prefix Piece.isBlank _).isInfix.trans
      (List.dropWhile_suffix Piece.isBlank).isInfix
  obtain ⟨front, back, hsplit⟩ := hpieces
  refine ⟨ofPieces front, ofPieces back, ?_⟩
  conv_rhs => rw [← ofPieces_pieces t, ← hsplit]
  simp [ofPieces, trim]

end Stack6502.Text
