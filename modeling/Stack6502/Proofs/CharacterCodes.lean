import Stack6502.Charset
import Stack6502.Proofs.Renaming
import Stack6502.Proofs.Words

/-!
# Codes of characters

A character is the first piece of its own bytes, so that the characters of a UTF-8 text are known
from the text. Each character set is a table with every code and every character once. Hence a text
has at most one list of codes, and decoding is encoding read from the other side.
-/
namespace Stack6502

namespace Text

/-! ### Characters from their bytes -/

section Lead

variable {b c d e : UInt8}

theorem lead_two (hb : 0xc2 ≤ b.toNat ∧ b.toNat < 0xe0) : lead b = some ⟨1, 0x80, 0xbf⟩ := by
  unfold lead
  simp only [UInt8.lt_iff_toNat_lt, UInt8.reduceToNat]
  rw [if_neg (by omega), if_pos (by omega)]

theorem lead_three (hb : 0xe0 ≤ b.toNat ∧ b.toNat < 0xf0) :
    lead b = some ⟨2, if b = 0xe0 then 0xa0 else 0x80, if b = 0xed then 0x9f else 0xbf⟩ := by
  unfold lead
  simp only [UInt8.lt_iff_toNat_lt, ← UInt8.toNat_inj, UInt8.reduceToNat]
  rw [if_neg (by omega), if_neg (by omega)]
  grind

theorem lead_four (hb : 0xf0 ≤ b.toNat ∧ b.toNat ≤ 0xf4) :
    lead b = some ⟨3, if b = 0xf0 then 0x90 else 0x80, if b = 0xf4 then 0x8f else 0xbf⟩ := by
  unfold lead
  simp only [UInt8.lt_iff_toNat_lt, ← UInt8.toNat_inj, UInt8.reduceToNat]
  rw [if_neg (by omega), if_neg (by omega), if_neg (by omega), if_neg (by omega),
    if_neg (by omega)]
  grind

theorem firstChar?_one (hb : b.toNat < 0x80) : firstChar? [b] = some (Char.ofNat b.toNat, 1) := by
  unfold firstChar?
  exact if_pos (UInt8.lt_iff_toNat_lt.mpr hb)

theorem not_lt_of_le_toNat (hb : 0x80 ≤ b.toNat) : ¬ b < 0x80 :=
  fun hlt => absurd (UInt8.lt_iff_toNat_lt.mp hlt) (Nat.not_lt.mpr hb)

theorem firstChar?_two (hb : 0xc2 ≤ b.toNat ∧ b.toNat < 0xe0)
    (hc : 0x80 ≤ c.toNat ∧ c.toNat ≤ 0xbf) :
    firstChar? [b, c] = some (Char.ofNat (b.toNat % 32 * 64 + tailBits c), 2) := by
  unfold firstChar?
  refine (if_neg (not_lt_of_le_toNat (by omega))).trans ?_
  rw [lead_two hb]
  simp only [UInt8.le_iff_toNat_le, UInt8.reduceToNat, hc, decide_true, Bool.and_self, if_true]

theorem firstChar?_three (hb : 0xe0 ≤ b.toNat ∧ b.toNat < 0xf0)
    (hc : 0x80 ≤ c.toNat ∧ c.toNat ≤ 0xbf) (hd : 0x80 ≤ d.toNat ∧ d.toNat ≤ 0xbf)
    (hlong : b.toNat = 0xe0 → 0xa0 ≤ c.toNat) (hsurrogate : b.toNat = 0xed → c.toNat ≤ 0x9f) :
    firstChar? [b, c, d] =
      some (Char.ofNat ((b.toNat % 16 * 64 + tailBits c) * 64 + tailBits d), 3) := by
  unfold firstChar?
  refine (if_neg (not_lt_of_le_toNat (by omega))).trans ?_
  rw [lead_three hb]
  refine if_pos ?_
  simp only [Bool.and_eq_true, decide_eq_true_eq, isTail_iff, UInt8.le_iff_toNat_le,
    ← UInt8.toNat_inj, UInt8.reduceToNat]
  refine ⟨⟨?_, ?_⟩, hd⟩
  · split_ifs <;> simp only [UInt8.reduceToNat] <;> omega
  · split_ifs <;> simp only [UInt8.reduceToNat] <;> omega

theorem firstChar?_four (hb : 0xf0 ≤ b.toNat ∧ b.toNat ≤ 0xf4)
    (hc : 0x80 ≤ c.toNat ∧ c.toNat ≤ 0xbf) (hd : 0x80 ≤ d.toNat ∧ d.toNat ≤ 0xbf)
    (he : 0x80 ≤ e.toNat ∧ e.toNat ≤ 0xbf) (hlong : b.toNat = 0xf0 → 0x90 ≤ c.toNat)
    (hhigh : b.toNat = 0xf4 → c.toNat ≤ 0x8f) :
    firstChar? [b, c, d, e] = some (Char.ofNat
      (((b.toNat % 8 * 64 + tailBits c) * 64 + tailBits d) * 64 + tailBits e), 4) := by
  unfold firstChar?
  refine (if_neg (not_lt_of_le_toNat (by omega))).trans ?_
  rw [lead_four hb]
  refine if_pos ?_
  simp only [Bool.and_eq_true, decide_eq_true_eq, isTail_iff, UInt8.le_iff_toNat_le,
    ← UInt8.toNat_inj, UInt8.reduceToNat]
  refine ⟨⟨⟨?_, ?_⟩, hd⟩, he⟩
  · split_ifs <;> simp only [UInt8.reduceToNat] <;> omega
  · split_ifs <;> simp only [UInt8.reduceToNat] <;> omega

end Lead

theorem firstChar?_utf8EncodeChar (c : Char) :
    firstChar? (String.utf8EncodeChar c) = some (c, (String.utf8EncodeChar c).length) := by
  have hvalid : c.val.toNat < 0xd800 ∨ 0xdfff < c.val.toNat ∧ c.val.toNat < 0x110000 := c.valid
  have hchar {n : Nat} (h : n = c.val.toNat) : Char.ofNat n = c := by
    rw [h]
    exact c.ofNat_toNat
  have hbyte {n : Nat} (hn : n < 256) : (UInt8.ofNat n).toNat = n := UInt8.toNat_ofNat_of_lt' hn
  unfold String.utf8EncodeChar
  dsimp only
  split_ifs with hone htwo hthree
  · rw [firstChar?_one (by rw [hbyte] <;> omega), hchar (by rw [hbyte]; omega)]
    rfl
  · rw [firstChar?_two (by rw [hbyte] <;> omega) (by rw [hbyte] <;> omega), hchar]
    · rfl
    · rw [tailBits, hbyte (by omega), hbyte (by omega)]
      omega
  · rw [firstChar?_three (by rw [hbyte] <;> omega) (by rw [hbyte] <;> omega)
      (by rw [hbyte] <;> omega) (by rw [hbyte (by omega), hbyte (by omega)]; omega)
      (by rw [hbyte (by omega), hbyte (by omega)]; omega), hchar]
    · rfl
    · rw [tailBits, tailBits, hbyte (by omega), hbyte (by omega), hbyte (by omega)]
      omega
  · rw [firstChar?_four (by rw [hbyte] <;> omega) (by rw [hbyte] <;> omega)
      (by rw [hbyte] <;> omega) (by rw [hbyte] <;> omega)
      (by rw [hbyte (by omega), hbyte (by omega)]; omega)
      (by rw [hbyte (by omega), hbyte (by omega)]; omega), hchar]
    · rfl
    · rw [tailBits, tailBits, tailBits, hbyte (by omega), hbyte (by omega), hbyte (by omega),
        hbyte (by omega)]
      omega

theorem pieces_utf8EncodeChar (c : Char) : pieces (String.utf8EncodeChar c) = [.char c] := by
  have hfirst := firstChar?_utf8EncodeChar c
  cases hbytes : String.utf8EncodeChar c with
  | nil => exact absurd hbytes (String.utf8EncodeChar_ne_nil)
  | cons b t =>
    rw [hbytes] at hfirst
    rw [pieces, piecesFrom, hfirst]
    dsimp only
    rw [List.length_cons, Nat.add_sub_cancel, piecesFrom_eq_pieces_drop, List.drop_length]
    rfl

def ofChars (chars : List Char) : Text := chars.flatMap ofChar

theorem pieces_ofChars (chars : List Char) : pieces (ofChars chars) = chars.map .char := by
  induction chars with
  | nil => rfl
  | cons c chars ih =>
    have hseam : IsSeam (ofChars chars) := by
      cases chars with
      | nil => rintro b ⟨⟩
      | cons d chars => exact isSeam_utf8EncodeChar_append d _
    rw [ofChars, List.flatMap_cons, ofChar, ← ofChars, pieces_append hseam, pieces_utf8EncodeChar,
      ih]
    rfl

theorem ofPieces_map_char (chars : List Char) : ofPieces (chars.map .char) = ofChars chars := by
  rw [ofPieces, List.flatMap_map]
  rfl

theorem pieces_eq_map_char_iff {t : Text} {chars : List Char} :
    pieces t = chars.map .char ↔ t = ofChars chars := by
  constructor
  · intro h
    rw [← ofPieces_pieces t, h, ofPieces_map_char]
  · rintro rfl
    exact pieces_ofChars chars

/-- A text is the UTF-8 form of its characters only. -/
theorem ofChars_injective {chars others : List Char} (h : ofChars chars = ofChars others) :
    chars = others := by
  have hpieces := pieces_ofChars chars
  rw [h, pieces_ofChars] at hpieces
  exact (List.map_injective_iff.mpr (fun _ _ => Piece.char.inj) hpieces).symm

end Text

/-! ### The tables -/

/-- In a list without repeated keys, the element found under a key is the one that has it. -/
theorem find?_eq_some_iff_of_nodup {α κ : Type} [BEq κ] [LawfulBEq κ] {f : α → κ} {l : List α}
    (h : (l.map f).Nodup) {k : κ} {a : α} : l.find? (f · == k) = some a ↔ a ∈ l ∧ f a = k := by
  have hkey {a : α} (hfind : l.find? (f · == k) = some a) : f a = k := by
    simpa using List.find?_some hfind
  constructor
  · exact fun hfind => ⟨List.mem_of_find?_eq_some hfind, hkey hfind⟩
  · rintro ⟨hmem, ha⟩
    obtain ⟨other, hother⟩ : ∃ other, l.find? (f · == k) = some other := by
      rw [← Option.isSome_iff_exists, List.find?_isSome]
      exact ⟨a, hmem, beq_iff_eq.mpr ha⟩
    rw [hother, List.inj_on_of_nodup_map h (List.mem_of_find?_eq_some hother) hmem
      ((hkey hother).trans ha.symm)]

namespace Charset

open Text (ofChars)

variable {cs : Charset} {b : UInt8} {c : Char} {chars : List Char} {codes : List UInt8} {t : Text}

/-- The codes of a table go up. -/
theorem nodup_codes (cs : Charset) : (cs.entries.map (·.1)).Nodup := by
  have hchain : ((cs.entries.map (·.1)).map UInt8.toNat).IsChain (· < ·) := by
    cases cs <;> decide +kernel
  have hnodup := (List.isChain_iff_pairwise.mp hchain).imp Nat.ne_of_lt
  exact List.Nodup.of_map _ hnodup

theorem nodup_characters (cs : Charset) : (cs.entries.map (·.2)).Nodup := by
  have hnumbers : ((cs.entries.map (·.2)).map Char.toNat).Nodup := by
    cases cs <;> decide +kernel
  exact hnumbers.of_map _

theorem encodeChar?_eq_some_iff : cs.encodeChar? c = some b ↔ (b, c) ∈ cs.entries := by
  simp only [encodeChar?, Option.map_eq_some_iff, find?_eq_some_iff_of_nodup cs.nodup_characters]
  constructor
  · rintro ⟨⟨b, c⟩, ⟨hmem, rfl⟩, rfl⟩
    exact hmem
  · exact fun hmem => ⟨(b, c), ⟨hmem, rfl⟩, rfl⟩

theorem decodeByte?_eq_some_iff : cs.decodeByte? b = some c ↔ (b, c) ∈ cs.entries := by
  simp only [decodeByte?, Option.map_eq_some_iff, find?_eq_some_iff_of_nodup cs.nodup_codes]
  constructor
  · rintro ⟨⟨b, c⟩, ⟨hmem, rfl⟩, rfl⟩
    exact hmem
  · exact fun hmem => ⟨(b, c), ⟨hmem, rfl⟩, rfl⟩

/-! ### Whole texts -/

def Codes (cs : Charset) (chars : List Char) (codes : List UInt8) : Prop :=
  List.Forall₂ (fun c b => (b, c) ∈ cs.entries) chars codes

theorem encodeFrom_eq_ok_iff {position : Nat} {ps : List Text.Piece} :
    cs.encodeFrom position ps = .ok codes ↔
      ∃ chars, ps = chars.map .char ∧ cs.Codes chars codes := by
  induction ps generalizing position codes with
  | nil =>
    constructor
    · rintro ⟨⟩
      exact ⟨[], rfl, .nil⟩
    · rintro ⟨chars, hps, hcodes⟩
      rw [List.map_eq_nil_iff.mp hps.symm] at hcodes
      cases hcodes
      rfl
  | cons p ps ih =>
    have hcons {chars : List Char} (hps : p :: ps = chars.map .char) :
        ∃ c rest, chars = c :: rest ∧ p = .char c ∧ ps = rest.map .char := by
      obtain ⟨c, rest, hchars, hc, hrest⟩ := List.map_eq_cons_iff.mp hps.symm
      exact ⟨c, rest, hchars, hc.symm, hrest.symm⟩
    cases p with
    | stray b =>
      refine iff_of_false (by simp [encodeFrom]) ?_
      rintro ⟨chars, hps, -⟩
      obtain ⟨c, rest, -, ⟨⟩, -⟩ := hcons hps
    | char c =>
      constructor
      · intro h
        rw [encodeFrom] at h
        split at h
        · cases h
        · rename_i b hb
          obtain ⟨rest, hrest, h⟩ := bind_eq_ok_iff.mp h
          cases h
          obtain ⟨chars, rfl, hcodes⟩ := ih.mp hrest
          exact ⟨c :: chars, rfl, .cons (encodeChar?_eq_some_iff.mp hb) hcodes⟩
      · rintro ⟨chars, hps, hcodes⟩
        obtain ⟨c, rest, rfl, ⟨⟩, rfl⟩ := hcons hps
        obtain ⟨b, codes, hb, hrest, rfl⟩ := List.forall₂_cons_left_iff.mp hcodes
        rw [encodeFrom, encodeChar?_eq_some_iff.mpr hb]
        exact bind_eq_ok_iff.mpr ⟨codes, ih.mpr ⟨rest, rfl, hrest⟩, rfl⟩

theorem encode_eq_ok_iff :
    cs.encode t = .ok codes ↔ ∃ chars, t = ofChars chars ∧ cs.Codes chars codes := by
  simp only [encode, encodeFrom_eq_ok_iff, Text.pieces_eq_map_char_iff]

theorem decode_eq_ok_iff :
    cs.decode codes = .ok t ↔ ∃ chars, t = ofChars chars ∧ cs.Codes chars codes := by
  induction codes generalizing t with
  | nil =>
    constructor
    · rintro ⟨⟩
      exact ⟨[], rfl, .nil⟩
    · rintro ⟨chars, rfl, hcodes⟩
      rw [List.forall₂_nil_right_iff.mp hcodes]
      rfl
  | cons b codes ih =>
    constructor
    · intro h
      rw [decode] at h
      split at h
      · cases h
      · rename_i c hc
        obtain ⟨rest, hrest, h⟩ := bind_eq_ok_iff.mp h
        cases h
        obtain ⟨chars, rfl, hcodes⟩ := ih.mp hrest
        exact ⟨c :: chars, rfl, .cons (decodeByte?_eq_some_iff.mp hc) hcodes⟩
    · rintro ⟨chars, rfl, hcodes⟩
      obtain ⟨c, chars, hc, hrest, rfl⟩ := List.forall₂_cons_right_iff.mp hcodes
      rw [decode, decodeByte?_eq_some_iff.mpr hc]
      exact bind_eq_ok_iff.mpr ⟨ofChars chars, ih.mpr ⟨chars, rfl, hrest⟩, rfl⟩

/-- Decoding is encoding read from the other side. -/
theorem decode_eq_ok_iff_encode : cs.decode codes = .ok t ↔ cs.encode t = .ok codes :=
  decode_eq_ok_iff.trans encode_eq_ok_iff.symm

theorem exists_encode_iff : (∃ codes, cs.encode t = .ok codes) ↔
    ∃ chars, t = ofChars chars ∧ ∀ c ∈ chars, ∃ b, (b, c) ∈ cs.entries := by
  have hcodes (chars : List Char) :
      (∃ codes, cs.Codes chars codes) ↔ ∀ c ∈ chars, ∃ b, (b, c) ∈ cs.entries := by
    induction chars with
    | nil => exact iff_of_true ⟨[], .nil⟩ (by simp)
    | cons c chars ih =>
      rw [List.forall_mem_cons, ← ih]
      constructor
      · rintro ⟨codes, hcodes⟩
        obtain ⟨b, codes, hb, hrest, -⟩ := List.forall₂_cons_left_iff.mp hcodes
        exact ⟨⟨b, hb⟩, codes, hrest⟩
      · rintro ⟨⟨b, hb⟩, codes, hcodes⟩
        exact ⟨b :: codes, .cons hb hcodes⟩
  simp only [encode_eq_ok_iff, ← hcodes]
  rw [exists_comm]
  simp only [exists_and_left]

/-- What keeps a text from being encoded: bytes that are no character, or a character outside the
set. -/
theorem encode_eq_error_iff : (∃ fault, cs.encode t = .error fault) ↔
    (∀ chars, t ≠ ofChars chars) ∨
      ∃ chars, t = ofChars chars ∧ ∃ c ∈ chars, ∀ b, (b, c) ∉ cs.entries := by
  have hfails : (∃ fault, cs.encode t = .error fault) ↔ ¬ ∃ codes, cs.encode t = .ok codes := by
    cases cs.encode t with
    | error fault => simp
    | ok codes => simp
  rw [hfails, exists_encode_iff]
  constructor
  · intro hnone
    by_cases hvalid : ∃ chars, t = ofChars chars
    · obtain ⟨chars, rfl⟩ := hvalid
      have hmissing : ¬ ∀ c ∈ chars, ∃ b, (b, c) ∈ cs.entries := fun h => hnone ⟨chars, rfl, h⟩
      push Not at hmissing
      exact .inr ⟨chars, rfl, hmissing⟩
    · exact .inl (not_exists.mp hvalid)
  · rintro (hinvalid | ⟨chars, rfl, c, hc, hmissing⟩) ⟨others, heq, hothers⟩
    · exact hinvalid others heq
    · rw [← Text.ofChars_injective heq] at hothers
      obtain ⟨b, hb⟩ := hothers c hc
      exact hmissing b hb

end Charset

end Stack6502
