import Stack6502.Emit.Assembly
import Stack6502.Proofs.CharacterCodes
import Stack6502.Proofs.DataReadBack

/-!
# Strings read back from data lines

A string takes a heading, which shows its text in a comment, and lines of up to sixteen bytes. The
bytes are the codes of the text, after their number or before a zero. The number is always enough to
find the end. The zero is not if the text has a character with the code zero.
-/
namespace Stack6502

namespace Text

/-! ### Quoted texts stand on one line -/

theorem newline_notMem_hexEscape {kind : Char} (hkind : byte kind ≠ newline) (width n : Nat) :
    newline ∉ hexEscape kind width n := by
  have hdigits : newline ∉ ofDigits 16 n := by
    have htable : ∀ d < 16, newline ≠ byte d.digitChar := by decide
    intro h
    obtain ⟨d, hd, heq⟩ := exists_digit_of_mem_ofDigits (by decide) h
    exact htable d hd heq
  rw [hexEscape, List.mem_cons, List.mem_cons, not_or, not_or]
  exact ⟨by decide, hkind.symm, newline_notMem_padLeft (by decide) hdigits width⟩

/-- The bytes of a character up to 127 are not in those of another. -/
theorem eq_of_mem_ofChar {c : Char} {b : UInt8} (hb : b.toNat < 128) (h : b ∈ ofChar c) :
    c = Char.ofNat b.toNat := by
  have hpiece := mem_pieces_of_mem hb h
  rw [ofChar, pieces_utf8EncodeChar, List.mem_singleton] at hpiece
  exact (Piece.char.inj hpiece).symm

theorem newline_notMem_quoteChar {mark : Char} (hmark : byte mark ≠ newline) (c : Char) :
    newline ∉ quoteChar mark c := by
  unfold quoteChar
  split
  · rename_i hescaped
    simp only [Bool.or_eq_true, decide_eq_true_eq] at hescaped
    rcases hescaped with rfl | rfl
    · simpa [show newline ≠ byte '\\' by decide] using hmark.symm
    · decide
  split
  · rename_i hprintable
    intro h
    rw [eq_of_mem_ofChar (by decide) h] at hprintable
    cases hprintable
  split
  · rename_i letter hletter
    have hne : newline ≠ byte letter := by
      unfold controlLetter? at hletter
      split at hletter
      all_goals cases hletter
      all_goals decide
    simpa [show newline ≠ byte '\\' by decide] using hne
  · dsimp only
    split
    · exact newline_notMem_hexEscape (by decide) _ _
    · split
      · exact newline_notMem_hexEscape (by decide) _ _
      · exact newline_notMem_hexEscape (by decide) _ _

theorem newline_notMem_quoted (t : Text) : newline ∉ quoted t := by
  have hpieces : newline ∉ (pieces t).flatMap (quotePiece '"') := by
    rw [List.mem_flatMap]
    rintro ⟨p, -, h⟩
    cases p with
    | char c => exact newline_notMem_quoteChar (by decide) c h
    | stray b => exact newline_notMem_hexEscape (by decide) _ _ h
  simp only [quoted, List.cons_append, List.mem_cons, List.mem_append, List.not_mem_nil, not_or,
    or_false]
  exact ⟨by decide, hpieces, by decide⟩

end Text

def Charsets.of (sets : Charsets) (type : DataType) : Charset :=
  if Storage.isForScreen type then sets.screen else sets.text

namespace Storage

/-! ### Lines of bytes -/

theorem byteLines_eq (bytes : List UInt8) :
    byteLines bytes = (chunks perLine (bytes.map byteValue)).map (integerLine [] .ubyte) := by
  rw [byteLines, map_hexByte, chunks_map, List.map_map]
  rfl

/-- Lines of `.byte` that hold the values, one to sixteen on each. -/
def HoldValues (data : List Text) (values : List Int64) : Prop :=
  ∃ rows : List (List Int64), rows.flatten = values ∧
    (∀ row ∈ rows, 1 ≤ row.length ∧ row.length ≤ 16) ∧
    List.Forall₂ (fun line row => Directive.read line = .ok ⟨".byte", row⟩) data rows

theorem holdValues_byteLines (bytes : List UInt8) :
    HoldValues ((byteLines bytes).map DataLine.text) (bytes.map byteValue) := by
  refine ⟨chunks perLine (bytes.map byteValue), flatten_chunks _,
    fun row => length_of_mem_chunks (n := perLine) (by decide), ?_⟩
  have hvalues : ∀ v ∈ bytes.map byteValue, v ≠ Int64.minValue :=
    List.forall_mem_map.mpr fun b _ => byteValue_ne_minValue b
  have hread : List.Forall₂
      (fun line row => Directive.read line = .ok ⟨directive .ubyte, row⟩) _ _ :=
    forall₂_read_rows hvalues
  rw [byteLines_eq, List.map_map]
  exact hread

def stringHeading (name : Text) (type : DataType) (str : Text) : Text :=
  name ++ "\t; " ++ type.name ++ " " ++ str.quoted ++ "\n"

theorem lines_stringHeading {name : Text} (h : Text.newline ∉ name) (type : DataType) (str : Text) :
    Text.lines (stringHeading name type str) = [stringHeading name type str] := by
  have htype : Text.newline ∉ Text.ofString type.name := by cases type <;> decide
  have hline : Text.IsLine (stringHeading name type str) := by
    refine ⟨name ++ "\t; " ++ type.name ++ " " ++ str.quoted, ?_, rfl⟩
    simp only [List.mem_append, not_or]
    exact ⟨⟨⟨⟨h, by decide⟩, htype⟩, by decide⟩, str.newline_notMem_quoted⟩
  simpa using Text.lines_flatten (List.forall_mem_singleton.mpr hline)

theorem lines_string (name : Text) (type : DataType) (str : Text) (bytes : List UInt8) :
    Text.lines ((.heading name (some (type.name ++ " " ++ str.quoted)) ::
        byteLines bytes).flatMap DataLine.text) =
      Text.lines (stringHeading name type str) ++ (byteLines bytes).map DataLine.text := by
  have hheading : (DataLine.heading name (some (type.name ++ " " ++ str.quoted))).text =
      stringHeading name type str := by
    simp only [DataLine.text, stringHeading, List.append_assoc]
    rfl
  have hlines : ∀ l ∈ (byteLines bytes).map DataLine.text, Text.IsLine l := by
    rw [byteLines_eq, List.map_map, List.forall_mem_map]
    exact fun row _ => isLine_integerLine (by simp) .ubyte row
  have hended : Text.IsEnded (stringHeading name type str) := .inr ⟨_, rfl⟩
  rw [List.flatMap_cons, hheading, hended.lines_append, List.flatMap_def, Text.lines_flatten hlines]

/-! ### The bytes of a string -/

variable {sets : Charsets} {type : DataType} {str : Text} {bytes codes : List UInt8}

def framed (type : DataType) (codes : List UInt8) : List UInt8 :=
  if isPrefixed type then UInt8.ofNat codes.length :: codes else codes ++ [0]

theorem stringBytes_eq_ok_iff : stringBytes sets type str = .ok bytes ↔
    ∃ codes, (sets.of type).encode str = .ok codes ∧ (isPrefixed type → codes.length ≤ 255) ∧
      bytes = framed type codes := by
  unfold stringBytes
  dsimp only
  rw [← Charsets.of]
  cases hcodes : (sets.of type).encode str with
  | error fault => simp
  | ok codes =>
    unfold framed
    cases hprefixed : isPrefixed type with
    | false => simp [eq_comm]
    | true =>
      by_cases hlength : 255 < codes.length
      · simp [hlength, Nat.not_le.mpr hlength]
      · simp [hlength, Nat.not_lt.mp hlength, eq_comm]

/-- Why a text has no bytes: it is not UTF-8, it has a character outside the set, or its length does
not fit in a byte. -/
def Refused (sets : Charsets) (type : DataType) (str : Text) : Prop :=
  (∀ chars, str ≠ Text.ofChars chars) ∨
  (∃ chars, str = Text.ofChars chars ∧ ∃ c ∈ chars, ∀ b, (b, c) ∉ (sets.of type).entries) ∨
  (isPrefixed type ∧ ∃ codes, (sets.of type).encode str = .ok codes ∧ 255 < codes.length)

theorem stringBytes_eq_error_iff :
    (∃ fault, stringBytes sets type str = .error fault) ↔ Refused sets type str := by
  rw [Refused, ← or_assoc, ← Charset.encode_eq_error_iff]
  unfold stringBytes
  dsimp only
  rw [← Charsets.of]
  cases hcodes : (sets.of type).encode str with
  | error fault => simp
  | ok codes =>
    cases hprefixed : isPrefixed type with
    | false => simp
    | true =>
      by_cases hlength : 255 < codes.length
      · simp [hlength]
      · simp [hlength]

theorem map_framed (h : isPrefixed type → codes.length ≤ 255) : (framed type codes).map byteValue =
    if isPrefixed type then Int64.ofNat codes.length :: codes.map byteValue
    else codes.map byteValue ++ [0] := by
  unfold framed
  split
  · rename_i hprefixed
    have hlength : (UInt8.ofNat codes.length).toNat = codes.length :=
      UInt8.toNat_ofNat_of_lt' (Nat.lt_succ_of_le (h hprefixed))
    rw [List.map_cons, byteValue, hlength]
  · rw [List.map_append]
    rfl

end Storage

section Strings

open Storage

variable {heap : Heap} {d : Decl} {type : DataType} {p : Payload}

theorem Decl.storage_string (sets : Charsets) (htype : d.type = .known type)
    (hstring : type.isString) (hheap : d.heap ≠ 0) (hp : heap.find? d.heap = some p) :
    d.storage sets heap = Storage.string sets d.name type p.str := by
  have hpayload : payload heap d.heap = .ok p := by
    simp [payload, hp, hheap]
  rw [Decl.storage, htype]
  cases type
  case str | strP | strS | strPS =>
    dsimp only
    rw [hpayload]
    rfl
  all_goals cases hstring

/-- The lines of a string after its heading hold its bytes. -/
theorem Decl.storage_string_eq_ok_iff (sets : Charsets) (htype : d.type = .known type)
    (hstring : type.isString) (hheap : d.heap ≠ 0) (hp : heap.find? d.heap = some p)
    {lines : List DataLine} : d.storage sets heap = .ok lines ↔
      ∃ bytes, stringBytes sets type p.str = .ok bytes ∧
        lines = .heading d.name (some (type.name ++ " " ++ p.str.quoted)) :: byteLines bytes := by
  rw [Decl.storage_string sets htype hstring hheap hp, Storage.string, bind_eq_ok_iff]
  simp [pure, Except.pure, eq_comm]

/-- A string has no lines if its text is not UTF-8, has a character outside the set of its type, or
is too long for a byte to tell its length. Otherwise the lines below the heading hold the codes of
the text, with their number in front or a zero at the end, and the text is decoded from the
codes. -/
theorem string_reads_back (sets : Charsets) (htype : d.type = .known type)
    (hstring : type.isString) (hheap : d.heap ≠ 0) (hp : heap.find? d.heap = some p) :
    ((∃ fault, d.storage sets heap = .error fault) ↔ Refused sets type p.str) ∧
    (¬ Refused sets type p.str →
      ∃ (lines : List DataLine) (data : List Text) (codes : List UInt8),
        d.storage sets heap = .ok lines ∧
        Text.lines (lines.flatMap DataLine.text) =
          Text.lines (stringHeading d.name type p.str) ++ data ∧
        (Text.newline ∉ d.name → Text.lines (stringHeading d.name type p.str) =
          [stringHeading d.name type p.str]) ∧
        HoldValues data (if isPrefixed type then Int64.ofNat codes.length :: codes.map byteValue
          else codes.map byteValue ++ [0]) ∧
        (sets.of type).encode p.str = .ok codes ∧ (sets.of type).decode codes = .ok p.str) := by
  constructor
  · rw [← stringBytes_eq_error_iff, Decl.storage_string sets htype hstring hheap hp, Storage.string]
    cases stringBytes sets type p.str with
    | error fault => simp [bind, Except.bind]
    | ok bytes => simp [bind, Except.bind, pure, Except.pure]
  · intro haccepted
    have hbytes : ∃ bytes, stringBytes sets type p.str = .ok bytes := by
      rw [← stringBytes_eq_error_iff] at haccepted
      cases hbytes : stringBytes sets type p.str with
      | error fault => exact absurd ⟨fault, hbytes⟩ haccepted
      | ok bytes => exact ⟨bytes, rfl⟩
    obtain ⟨bytes, hbytes⟩ := hbytes
    obtain ⟨codes, hcodes, hlength, rfl⟩ := stringBytes_eq_ok_iff.mp hbytes
    refine ⟨_, _, codes, (Decl.storage_string_eq_ok_iff sets htype hstring hheap hp).mpr
      ⟨_, hbytes, rfl⟩, lines_string .., fun h => lines_stringHeading h type p.str, ?_, hcodes,
      Charset.decode_eq_ok_iff_encode.mpr hcodes⟩
    rw [← map_framed hlength]
    exact holdValues_byteLines _

theorem string_reads_back_screen : ∃ (lines : List DataLine) (data : List Text),
    Decl.storage ⟨.petscii, .screencodes⟩ [(7, ⟨"£5 @ ↑ or ←, not A", [], []⟩)]
      ⟨"main.hint", .known .strPS, none, 7, false⟩ = .ok lines ∧
    Text.lines (lines.flatMap DataLine.text) =
      Text.ofString "main.hint\t; str_ps \"£5 @ ↑ or ←, not A\"\n" :: data ∧
    HoldValues data [18, 28, 53, 32, 0, 32, 30, 32, 15, 18, 32, 31, 44, 32, 14, 15, 20, 32, 65] ∧
    Charset.screencodes.decode [28, 53, 32, 0, 32, 30, 32, 15, 18, 32, 31, 44, 32, 14, 15, 20, 32,
      65] = .ok "£5 @ ↑ or ←, not A" := by
  have hcodes : Charset.screencodes.encode "£5 @ ↑ or ←, not A" = .ok [28, 53, 32, 0, 32, 30, 32,
      15, 18, 32, 31, 44, 32, 14, 15, 20, 32, 65] := by decide +kernel
  have hpayload : Heap.find? [(7, ⟨"£5 @ ↑ or ←, not A", [], []⟩)] 7 =
      some ⟨"£5 @ ↑ or ←, not A", [], []⟩ := rfl
  obtain ⟨-, hread⟩ := string_reads_back ⟨.petscii, .screencodes⟩
    (d := ⟨"main.hint", .known .strPS, none, 7, false⟩) rfl rfl (by decide) hpayload
  have haccepted : ¬ Refused ⟨.petscii, .screencodes⟩ .strPS "£5 @ ↑ or ←, not A" := by
    rw [← stringBytes_eq_error_iff]
    rintro ⟨fault, hfault⟩
    have hbytes : stringBytes ⟨.petscii, .screencodes⟩ .strPS "£5 @ ↑ or ←, not A" = .ok _ :=
      stringBytes_eq_ok_iff.mpr ⟨_, hcodes, by decide, rfl⟩
    cases hbytes.symm.trans hfault
  obtain ⟨lines, data, codes, hlines, htext, hheading, hvalues, hencode, hdecode⟩ :=
    hread haccepted
  obtain rfl := Except.ok.inj (hencode.symm.trans hcodes)
  have htitle : stringHeading "main.hint" .strPS "£5 @ ↑ or ←, not A" =
      Text.ofString "main.hint\t; str_ps \"£5 @ ↑ or ←, not A\"\n" := by decide +kernel
  rw [hheading (by decide), htitle] at htext
  exact ⟨lines, data, hlines, htext, hvalues, hdecode⟩

end Strings

/-! ### Terminated strings -/

namespace Text

theorem fst_cut_eq_takeWhile (sep : UInt8) (t : Text) : (t.cut sep).1 = t.takeWhile (· != sep) := by
  unfold cut
  split
  · rename_i hdrop
    have hsplit := List.takeWhile_append_dropWhile (p := (· != sep)) (l := t)
    rw [hdrop, List.append_nil] at hsplit
    exact hsplit.symm
  · rfl

theorem fst_cut_eq_self_iff {sep : UInt8} {t : Text} : (t.cut sep).1 = t ↔ sep ∉ t := by
  rw [fst_cut_eq_takeWhile, List.takeWhile_eq_self_iff]
  simp only [bne_iff_ne, ne_eq]
  exact ⟨fun h hmem => h sep hmem rfl, fun h b hb heq => h (heq ▸ hb)⟩

section Ascii

variable {c : Char} {b : UInt8} (hc : ofChar c = [b]) (hb : b.toNat < 128)
include hc hb

/-- The byte of an ASCII character stands for no other character. -/
theorem mem_ofChar_iff {other : Char} : b ∈ ofChar other ↔ other = c := by
  constructor
  · intro h
    have hmem : b ∈ ofChar c := hc ▸ List.mem_singleton_self b
    rw [eq_of_mem_ofChar hb h, eq_of_mem_ofChar hb hmem]
  · rintro rfl
    rw [hc]
    exact List.mem_singleton_self b

theorem mem_ofChars_iff {chars : List Char} : b ∈ ofChars chars ↔ c ∈ chars := by
  simp only [ofChars, List.mem_flatMap, mem_ofChar_iff hc hb, exists_eq_right]

/-- Cutting at the byte of an ASCII character is cutting at the character. -/
theorem fst_cut_ofChars (chars : List Char) :
    ((ofChars chars).cut b).1 = ofChars (chars.takeWhile (· != c)) := by
  rw [fst_cut_eq_takeWhile]
  induction chars with
  | nil => rfl
  | cons other chars ih =>
    rw [ofChars, List.flatMap_cons, ← ofChars]
    by_cases hother : other = c
    · rw [hother, hc, List.takeWhile_cons_of_neg (by simp)]
      exact List.takeWhile_cons_of_neg (by simp)
    · have hne : ∀ a ∈ ofChar other, a != b := by
        intro a ha
        rw [bne_iff_ne]
        rintro rfl
        exact hother ((mem_ofChar_iff hc hb).mp ha)
      rw [List.takeWhile_append_of_pos hne, ih, List.takeWhile_cons_of_pos (by simpa using hother)]
      rfl

end Ascii

end Text

namespace Charset

variable {cs : Charset} {c : Char} {b : UInt8} {chars : List Char} {codes : List UInt8}

/-- Only the screen codes have a character with the code zero. -/
theorem zero_mem_entries_iff : (0, c) ∈ cs.entries ↔ cs = .screencodes ∧ c = '@' := by
  rw [← decodeByte?_eq_some_iff]
  cases cs with
  | petscii => simp [show decodeByte? .petscii 0 = none by decide]
  | screencodes => simp [show decodeByte? .screencodes 0 = some '@' by decide, eq_comm]

theorem Codes.mem_iff (h : cs.Codes chars codes) :
    b ∈ codes ↔ ∃ c ∈ chars, (b, c) ∈ cs.entries := by
  induction h with
  | nil => simp
  | @cons c code chars codes hc _ ih =>
    have hcode : (b, c) ∈ cs.entries ↔ b = code := by
      rw [← encodeChar?_eq_some_iff, encodeChar?_eq_some_iff.mpr hc, Option.some.injEq, eq_comm]
    rw [List.mem_cons, ih, List.exists_mem_cons_iff, hcode]

/-- The codes before the first zero are those of the characters before the first one whose code is
zero. -/
theorem Codes.takeWhile (h : cs.Codes chars codes) :
    cs.Codes (chars.takeWhile (cs.encodeChar? · != some 0)) (codes.takeWhile (· != 0)) := by
  induction h with
  | nil => exact .nil
  | @cons c code chars codes hc _ ih =>
    have hcode : (cs.encodeChar? c != some 0) = (code != 0) := by
      rw [encodeChar?_eq_some_iff.mpr hc]
      rfl
    rw [List.takeWhile_cons, List.takeWhile_cons, hcode]
    split
    · exact .cons hc ih
    · exact .nil

theorem zero_mem_codes_iff {t : Text} (h : cs.encode t = .ok codes) :
    0 ∈ codes ↔ cs = .screencodes ∧ Text.byte '@' ∈ t := by
  obtain ⟨chars, rfl, hcodes⟩ := encode_eq_ok_iff.mp h
  rw [hcodes.mem_iff, Text.mem_ofChars_iff (c := '@') (by decide) (by decide)]
  simp only [zero_mem_entries_iff]
  constructor
  · rintro ⟨c, hc, hcs, rfl⟩
    exact ⟨hcs, hc⟩
  · rintro ⟨hcs, hmem⟩
    exact ⟨'@', hmem, hcs, rfl⟩

/-- What is read up to the first zero. -/
theorem decode_takeWhile {t : Text} (h : cs.encode t = .ok codes) :
    cs.decode (codes.takeWhile (· != 0)) =
      .ok (if cs = .petscii then t else (t.cut (Text.byte '@')).1) := by
  obtain ⟨chars, rfl, hcodes⟩ := encode_eq_ok_iff.mp h
  refine decode_eq_ok_iff.mpr ⟨_, ?_, hcodes.takeWhile⟩
  have hzero (c : Char) : (cs.encodeChar? c != some 0) = !(cs == .screencodes && c == '@') := by
    rw [bne, Bool.not_inj_iff, Bool.eq_iff_iff]
    simp [encodeChar?_eq_some_iff, zero_mem_entries_iff]
  simp only [hzero]
  cases cs with
  | petscii => rw [if_pos rfl, List.takeWhile_eq_self_iff.mpr (by simp)]
  | screencodes =>
    rw [if_neg (by decide), Text.fst_cut_ofChars (c := '@') (by decide) (by decide)]
    rfl

end Charset

section Terminated

open Storage
open Text (byte)

variable {heap : Heap} {d : Decl} {type : DataType} {p : Payload} {lines : List DataLine}

theorem takeWhile_terminated (codes : List UInt8) :
    (codes ++ [0]).takeWhile (· != 0) = codes.takeWhile (· != 0) := by
  induction codes with
  | nil => rfl
  | cons code codes ih => rw [List.cons_append, List.takeWhile_cons, List.takeWhile_cons, ih]

/-- With the usual character sets, a string that ends with a zero has no other zero, and is read up
to the first one as a whole, exactly if it is not in screen codes or its text has no `@`. What is
read otherwise is the text up to its first `@`. -/
theorem terminated_reads_back_iff (htype : d.type = .known type)
    (hterminated : type ∈ [.str, .strS]) (hheap : d.heap ≠ 0) (hp : heap.find? d.heap = some p)
    (hlines : d.storage Options.standard.charsets heap = .ok lines) :
    ∃ (data : List Text) (bytes : List UInt8),
      Text.lines (lines.flatMap DataLine.text) =
        Text.lines (stringHeading d.name type p.str) ++ data ∧
      HoldValues data (bytes.map byteValue) ∧
      ((∃ front, bytes = front ++ [0] ∧ 0 ∉ front) ↔ type = .str ∨ byte '@' ∉ p.str) ∧
      ((Options.standard.charsets.of type).decode (bytes.takeWhile (· != 0)) = .ok p.str ↔
        type = .str ∨ byte '@' ∉ p.str) ∧
      (Options.standard.charsets.of type).decode (bytes.takeWhile (· != 0)) =
        .ok (if type = .str then p.str else (p.str.cut (byte '@')).1) := by
  have hkind : type.isString ∧ isPrefixed type = false ∧
      (Options.standard.charsets.of type = .petscii ↔ type = .str) := by
    simp only [List.mem_cons, List.not_mem_nil, or_false] at hterminated
    rcases hterminated with rfl | rfl
    · exact ⟨rfl, rfl, by decide⟩
    · exact ⟨rfl, rfl, by decide⟩
  obtain ⟨hstring, hprefixed, hset⟩ := hkind
  obtain ⟨bytes, hbytes, rfl⟩ :=
    (Decl.storage_string_eq_ok_iff _ htype hstring hheap hp).mp hlines
  obtain ⟨codes, hcodes, -, rfl⟩ := stringBytes_eq_ok_iff.mp hbytes
  have hframed : framed type codes = codes ++ [0] := by simp [framed, hprefixed]
  have hread : (Options.standard.charsets.of type).decode
      ((framed type codes).takeWhile (· != 0)) =
        .ok (if type = .str then p.str else (p.str.cut (byte '@')).1) := by
    rw [hframed, takeWhile_terminated, Charset.decode_takeWhile hcodes]
    simp only [hset]
  refine ⟨_, framed type codes, lines_string .., holdValues_byteLines _, ?_, ?_, hread⟩
  · have hfront : (∃ front, framed type codes = front ++ [0] ∧ 0 ∉ front) ↔ 0 ∉ codes := by
      simp [hframed]
    have hscreen : Options.standard.charsets.of type = .screencodes ↔ type ≠ .str := by
      rw [← not_iff_not, not_not, ← hset]
      cases Options.standard.charsets.of type <;> decide
    rw [hfront, Charset.zero_mem_codes_iff hcodes, hscreen, not_and_or, not_not]
  · rw [hread, Except.ok.injEq]
    split
    · simp [*]
    · simp [*, Text.fst_cut_eq_self_iff]

theorem terminated_reads_back_iff_question : ∃ (lines : List DataLine) (data : List Text)
    (bytes : List UInt8),
    Decl.storage Options.standard.charsets [(1, ⟨"ready?", [], []⟩)]
      ⟨"main.prompt", .known .strS, none, 1, false⟩ = .ok lines ∧
    HoldValues data (bytes.map byteValue) ∧ (∃ front, bytes = front ++ [0] ∧ 0 ∉ front) ∧
    Charset.screencodes.decode (bytes.takeWhile (· != 0)) = .ok "ready?" := by
  obtain ⟨lines, hlines⟩ : ∃ lines, Decl.storage Options.standard.charsets
      [(1, ⟨"ready?", [], []⟩)] ⟨"main.prompt", .known .strS, none, 1, false⟩ = .ok lines :=
    ⟨_, rfl⟩
  obtain ⟨data, bytes, -, hvalues, hzero, hread, -⟩ := terminated_reads_back_iff
    (d := ⟨"main.prompt", .known .strS, none, 1, false⟩) rfl (by decide) (by decide) rfl hlines
  exact ⟨lines, data, bytes, hlines, hvalues, hzero.mpr (.inr (by decide)),
    hread.mpr (.inr (by decide))⟩

/-- A text with an `@` ends there when it is read, since the screen code of that is zero. -/
theorem terminated_string_cut : ∃ line : DataLine,
    Decl.storage Options.standard.charsets [(1, ⟨"me@home", [], []⟩)]
      ⟨"main.address", .known .strS, none, 1, false⟩ =
        .ok [.heading "main.address" (some "str_s \"me@home\""), line] ∧
    Directive.read line.text = .ok ⟨".byte", [13, 5, 0, 8, 15, 13, 5, 0]⟩ ∧
    Charset.screencodes.decode ([13, 5, 0, 8, 15, 13, 5, 0].takeWhile (· != 0)) = .ok "me" := by
  refine ⟨integerLine [] .ubyte [13, 5, 0, 8, 15, 13, 5, 0], by decide +kernel, by decide +kernel,
    by decide +kernel⟩

end Terminated

end Stack6502
