import Stack6502.Emit.Storage
import Stack6502.Proofs.IntegerValues
import Stack6502.Proofs.StepLines

/-!
# Integers read back from data lines

The declared integers stand in data lines in hexadecimal, and reading a data line gives them back.
Two things can be in the way: the least integer, whose digits alone are beyond the largest, and a
label with a word that looks like a directive or with the start of a comment.
-/
namespace Stack6502

namespace Text

/-! ### Digits, comments and words -/

theorem exists_digit_of_mem_ofDigits {base : Nat} (hbase : 1 < base) {n : Nat} {b : UInt8}
    (h : b ∈ ofDigits base n) : ∃ d < base, b = byte d.digitChar := by
  induction n using Nat.strongRecOn with
  | ind n ih =>
    rw [ofDigits, Nat.toDigits_eq_if hbase] at h
    split at h
    · rename_i hlt
      exact ⟨n, hlt, List.mem_singleton.mp h⟩
    · rename_i hle
      rw [List.map_append, List.mem_append] at h
      rcases h with h | h
      · exact ih (n / base) (Nat.div_lt_self (by omega) hbase) h
      · exact ⟨n % base, Nat.mod_lt _ (by omega), List.mem_singleton.mp h⟩

theorem newline_notMem_ofNat (n : Nat) : newline ∉ ofNat n := fun h =>
  absurd (toNat_of_mem_ofNat h) (by decide)

theorem newline_notMem_padLeft {fill : UInt8} {t : Text} (hfill : fill ≠ newline)
    (ht : newline ∉ t) (width : Nat) : newline ∉ padLeft width fill t := by
  rw [padLeft, List.mem_append, not_or]
  exact ⟨fun h => hfill (List.eq_of_mem_replicate h).symm, ht⟩

theorem mem_of_mem_hex {v : Int64} {b : UInt8} (h : b ∈ hex v) :
    b ∈ ofString "-$0123456789abcdef" := by
  have hdigit : ∀ d : Nat, d < 16 → byte d.digitChar ∈ ofString "-$0123456789abcdef" := by decide
  rw [hex, List.mem_append, padLeft, List.mem_append] at h
  rcases h with h | h | h
  · split at h
    · exact List.mem_of_mem_take (i := 2) h
    · exact List.mem_of_mem_drop (i := 1) (List.mem_of_mem_take (i := 1) h)
  · rw [List.eq_of_mem_replicate h]
    exact hdigit 0 (by decide)
  · obtain ⟨d, hd, rfl⟩ := exists_digit_of_mem_ofDigits (by decide) h
    exact hdigit d hd

theorem newline_notMem_hex (v : Int64) : newline ∉ hex v := fun h =>
  absurd (mem_of_mem_hex h) (by decide)

theorem notMem_join {b : UInt8} {sep : Text} (hsep : b ∉ sep) {ts : List Text}
    (hts : ∀ t ∈ ts, b ∉ t) : b ∉ join sep ts := by
  induction ts with
  | nil => simp [join, List.intercalate]
  | cons t ts ih =>
    obtain ⟨ht, hrest⟩ := List.forall_mem_cons.mp hts
    cases ts with
    | nil => simpa [join, List.intercalate] using ht
    | cons u us =>
      rw [join, List.intercalate_cons_cons, List.mem_append, List.mem_append, not_or, not_or]
      exact ⟨⟨ht, hsep⟩, ih hrest⟩

/-- What follows a text with a separator does not reach its first part. -/
theorem fst_cut_append_of_mem {sep : UInt8} {t : Text} (h : sep ∈ t) (u : Text) :
    ((t ++ u).cut sep).1 = (t.cut sep).1 := by
  obtain ⟨rest, ht, hfirst, hrest⟩ := exists_cut sep t
  have hhead : ∀ b ∈ (rest ++ u).head?, b = sep := by
    cases rest with
    | nil =>
      rw [List.append_nil] at ht
      rw [← ht] at hfirst
      exact absurd h hfirst
    | cons b rest => exact hrest
  conv_lhs => rw [ht, List.append_assoc]
  exact fst_cut_append hfirst hhead

def IsVisible (b : UInt8) : Prop := 0x20 < b.toNat ∧ b.toNat < 128

instance : DecidablePred IsVisible := fun b =>
  inferInstanceAs (Decidable (0x20 < b.toNat ∧ b.toNat < 128))

theorem flatten_words {t : Text} (h : ∀ b ∈ t, IsVisible b) : (words t).flatten = t := by
  by_cases hne : t = []
  · rw [hne]
    rfl
  · rw [(isWord_of_visible hne h).words_eq, List.flatten_cons, List.flatten_nil, List.append_nil]

/-- The blanks after the commas are gone. -/
theorem flatten_words_join {ts : List Text} (h : ∀ t ∈ ts, ∀ b ∈ t, IsVisible b) :
    (words (join ", " ts)).flatten = join [byte ','] ts := by
  induction ts with
  | nil => rfl
  | cons t ts ih =>
    obtain ⟨ht, hts⟩ := List.forall_mem_cons.mp h
    cases ts with
    | nil => simpa [join, List.intercalate] using flatten_words ht
    | cons u us =>
      have hcomma : ∀ b ∈ t ++ [byte ','], IsVisible b := by
        rw [List.forall_mem_append, List.forall_mem_singleton]
        exact ⟨ht, by decide⟩
      have hjoin : join ", " (t :: u :: us) =
          t ++ [byte ','] ++ space :: join ", " (u :: us) := by
        simp only [join, List.intercalate_cons_cons, List.append_assoc]
        rfl
      rw [hjoin, words_append_cons (by decide) (by decide), List.flatten_append,
        flatten_words hcomma, ih hts]
      simp [join]

theorem isVisible_of_mem_hex {v : Int64} {b : UInt8} (h : b ∈ hex v) : IsVisible b := by
  have htable : (ofString "-$0123456789abcdef").all fun b => decide (IsVisible b) := by decide
  exact of_decide_eq_true (List.all_eq_true.mp htable b (mem_of_mem_hex h))

end Text

/-! ### Hexadecimal texts -/

namespace IntLiteral

theorem isDigitFor_digitChar {base d : Nat} (h : d < base) :
    IsDigitFor base (Text.byte d.digitChar) d := ⟨h, .inl rfl⟩

theorem numeral_ofDigits {base : Nat} (hbase : 1 < base) (underscores : Bool) (n : Nat) :
    Numeral base underscores (Text.ofDigits base n) n := by
  induction n using Nat.strong_induction_on with
  | _ n ih =>
    rw [Text.ofDigits, Nat.toDigits_eq_if hbase]
    split
    · rename_i hlt
      exact .digit (isDigitFor_digitChar hlt)
    · have hlt : n / base < n := Nat.div_lt_self (by omega) hbase
      have hmore := (ih (n / base) hlt).more (isDigitFor_digitChar (Nat.mod_lt n (by omega)))
      rw [Nat.div_add_mod'] at hmore
      rw [List.map_append]
      exact hmore

variable {base : Nat} {underscores : Bool} {t : Text} {n : Nat}

theorem Numeral.zero_cons (hbase : 0 < base) (h : Numeral base underscores t n) :
    Numeral base underscores (Text.byte '0' :: t) n := by
  have hzero : Numeral base underscores [Text.byte '0'] 0 := .digit (isDigitFor_digitChar hbase)
  induction h with
  | digit hb => simpa using hzero.more hb
  | more _ hb ih => exact ih.more hb
  | group _ hallowed hb ih => exact ih.group hallowed hb

theorem Numeral.padLeft (hbase : 0 < base) (h : Numeral base underscores t n) (width : Nat) :
    Numeral base underscores (Text.padLeft width (Text.byte '0') t) n := by
  rw [Text.padLeft]
  induction width - t.length with
  | zero => exact h
  | succ k ih => exact ih.zero_cons hbase

end IntLiteral

section Hex

open IntLiteral

variable {v : Int64}

theorem parse?_hex_of_ne (h : v ≠ Int64.minValue) : Value.parse? (hex v) = some (.int v) := by
  rw [Value.parse?_eq_int_iff]
  have hdigits : Numeral 16 false (Text.ofDigits 16 v.toInt.natAbs) v.toInt.natAbs :=
    numeral_ofDigits (by decide) false _
  have hpadded := hdigits.padLeft (by decide) (if v.toInt.natAbs ≤ 0xff then 2 else 4)
  rw [hex]
  split
  · rename_i hneg
    have hneg' : v.toInt < 0 := Int64.lt_iff_toInt_lt.mp hneg
    have hmin : v.toInt ≠ -2 ^ 63 := fun hv => h (Int64.toInt_inj.mp hv)
    have hle := v.le_toInt
    have hvalue : (-v).toInt = Sign.absent.apply v.toInt.natAbs := by
      rw [Int64.toInt_neg, Int.bmod_eq_of_le (by omega) (by omega)]
      exact (Int.ofNat_natAbs_of_nonpos hneg'.le).symm
    have hreads := Value.ReadsInt.mk true .dollar .absent (by simp) hpadded hvalue
    rwa [if_pos rfl, Int64.neg_neg] at hreads
  · rename_i hpos
    have hpos' : 0 ≤ v.toInt := Int64.le_iff_toInt_le.mp (Int64.not_lt.mp hpos)
    have hvalue : v.toInt = Sign.absent.apply v.toInt.natAbs :=
      (Int.natAbs_of_nonneg hpos').symm
    exact Value.ReadsInt.mk false .dollar .absent (by simp) hpadded hvalue

theorem parse?_hex_iff : Value.parse? (hex v) = some (.int v) ↔ v ≠ Int64.minValue := by
  refine ⟨?_, parse?_hex_of_ne⟩
  rintro h rfl
  have hnone : Value.parse? (hex Int64.minValue) = none := by decide
  rw [hnone] at h
  cases h

theorem parse?_text_iff :
    Value.parse? (Value.int v).text = some (.int v) ↔ v ≠ Int64.minValue := by
  refine ⟨?_, parse?_ofInt⟩
  rintro h rfl
  obtain ⟨w, hw, -⟩ := (Value.parse?_int_iff rfl rfl).mp h
  have hrange : readInt none "9223372036854775808" = .error .outOfRange := by decide
  exact absurd (hrange.symm.trans hw) (by simp)

end Hex

/-! ### Reading a data line -/

namespace Directive

open Text (byte)

theorem readValues_eq_ok_iff {ts : List Text} {vs : List Int64} : readValues ts = .ok vs ↔
    List.Forall₂ (fun t v => Value.parse? t = some (.int v)) ts vs := by
  induction ts generalizing vs with
  | nil => rw [readValues, List.forall₂_nil_left_iff, Except.ok.injEq, eq_comm]
  | cons t ts ih =>
    rw [List.forall₂_cons_left_iff, readValues]
    cases hparse : Value.parse? t with
    | none => simp
    | some value =>
      cases value with
      | float x => simp
      | int v =>
        dsimp only
        rw [bind_eq_ok_iff]
        constructor
        · rintro ⟨ws, hws, ⟨⟩⟩
          exact ⟨v, ws, rfl, ih.mp hws, rfl⟩
        · rintro ⟨w, ws, ⟨⟩, hws, rfl⟩
          exact ⟨ws, ih.mpr hws, rfl⟩

theorem exists_parse?_of_readValues {ts : List Text} {vs : List Int64}
    (h : readValues ts = .ok vs) : ∀ t ∈ ts, ∃ v, Value.parse? t = some (.int v) := by
  rw [readValues_eq_ok_iff] at h
  induction h with
  | nil => simp
  | @cons t v _ _ hv _ ih => exact List.forall_mem_cons.mpr ⟨⟨v, hv⟩, ih⟩

theorem dot_notMem_of_parse? {t : Text} {v : Int64} (h : Value.parse? t = some (.int v)) :
    byte '.' ∉ t := by
  obtain @⟨negative, m, sign, u, n, w, hminus, hu, hw⟩ := Value.parse?_eq_int_iff.mp h
  have hdigits : byte '.' ∉ u := hu.notMem rfl (by decide)
  have hmark : byte '.' ∉ m.text := by cases m <;> decide
  have hsign : byte '.' ∉ sign.text := by cases sign <;> decide
  cases negative with
  | true => simp [signed, hdigits, hmark, hsign, show byte '.' ≠ byte '-' by decide]
  | false => simp [signed, hdigits, hmark, hsign]

theorem dot_notMem_of_readValues {t : Text} {vs : List Int64}
    (h : readValues (List.splitOn (byte ',') t) = .ok vs) : byte '.' ∉ t := by
  have hjoin : Text.join [byte ','] (List.splitOn (byte ',') t) = t := List.intercalate_splitOn _
  rw [← hjoin]
  refine Text.notMem_join (by decide) fun literal hliteral => ?_
  obtain ⟨v, hv⟩ := exists_parse?_of_readValues h literal hliteral
  exact dot_notMem_of_parse? hv

/-- Without a comment, the values are what follows the first word with a leading dot. -/
theorem read_eq_ok_iff {line name : Text} {rest : List Text} {found : Directive}
    (hline : byte ';' ∉ line)
    (hwords : line.words.dropWhile (!Text.startsWith "." ·) = name :: rest)
    (hargs : rest.flatten ≠ []) : read line = .ok found ↔
      ∃ vs, readValues (List.splitOn (byte ',') rest.flatten) = .ok vs ∧ found = ⟨name, vs⟩ := by
  have hcut : (line.cut (byte ';')).1 = line := by rw [Text.cut_of_notMem hline]
  rw [read, hcut]
  dsimp only
  rw [hwords]
  dsimp only
  rw [if_neg (by simpa using hargs), bind_eq_ok_iff]
  simp [pure, Except.pure, eq_comm]

/-- A comment after the values makes no difference. -/
theorem read_comment {label directive : Text} {args : List Text}
    (h : byte ';' ∉ (DataLine.values label directive args none).text) (comment : Text) :
    read (DataLine.values label directive args (some comment)).text =
      read (DataLine.values label directive args none).text := by
  rw [DataLine.text] at h
  rw [DataLine.text, DataLine.text]
  generalize label ++ [Text.tab] ++ directive ++ "  " ++ Text.join ", " args = body at h ⊢
  rw [List.append_nil] at h ⊢
  have hbody : byte ';' ∉ body ++ [Text.space, Text.space] := by
    rw [List.mem_append, not_or]
    exact ⟨fun hmem => h (List.mem_append_left _ hmem), by decide⟩
  have hline : body ++ ("  ; " ++ comment) ++ [Text.newline] = (body ++ [Text.space, Text.space]) ++
      byte ';' :: Text.space :: (comment ++ [Text.newline]) := by
    simp only [List.append_assoc]
    rfl
  have hcut : ((body ++ ("  ; " ++ comment) ++ [Text.newline]).cut (byte ';')).1 =
      body ++ [Text.space, Text.space] := by
    rw [hline]
    exact Text.fst_cut_append hbody (by simp)
  have hwords : Text.words (body ++ [Text.space, Text.space]) =
      Text.words (body ++ [Text.newline]) := by
    rw [Text.words_append_cons (by decide) (by decide), Text.words_append_cons (by decide)
      (by decide)]
    rfl
  simp only [read, hcut, hwords, Text.cut_of_notMem h]

end Directive

namespace Storage

open Text (byte)

def integerLine (label : Text) (type : DataType) (vs : List Int64) : DataLine :=
  .values label (directive type) (vs.map hex) none

variable {label : Text} {type : DataType} {vs : List Int64}

theorem directive_mem (type : DataType) :
    directive type ∈ [".byte", ".char", ".word", ".sint"].map Text.ofString := by
  cases type <;> decide

structure IsDirective (t : Text) : Prop where
  isWord : t.IsWord
  dotted : Text.startsWith "." t
  dot_mem : byte '.' ∈ t
  noSemicolon : byte ';' ∉ t
  noNewline : Text.newline ∉ t

theorem isDirective_directive (type : DataType) : IsDirective (directive type) := by
  have htable : ([".byte", ".char", ".word", ".sint"].map Text.ofString).all fun t =>
      t.all (fun b => decide (Text.IsVisible b)) && Text.startsWith "." t &&
        !t.contains (byte ';') && t.contains (byte '.') && !t.contains Text.newline := by decide
  have hrow := List.all_eq_true.mp htable _ (directive_mem type)
  simp only [Bool.and_eq_true, Bool.not_eq_true', List.all_eq_true, decide_eq_true_eq,
    List.contains_eq_mem, decide_eq_false_iff_not] at hrow
  obtain ⟨⟨⟨⟨hvisible, hstart⟩, hsemicolon⟩, hdot⟩, hnewline⟩ := hrow
  have hne : directive type ≠ [] := List.ne_nil_of_mem hdot
  exact ⟨Text.isWord_of_visible hne hvisible, hstart, hdot, hsemicolon, hnewline⟩

theorem text_integerLine (label : Text) (type : DataType) (vs : List Int64) :
    (integerLine label type vs).text = label ++ Text.tab :: (directive type ++
      Text.space :: Text.space :: (Text.join ", " (vs.map hex) ++ Text.newline :: [])) := by
  simp only [integerLine, DataLine.text, List.append_assoc, List.append_nil]
  rfl

theorem words_integerLine (label : Text) (type : DataType) (vs : List Int64) :
    (integerLine label type vs).text.words =
      label.words ++ directive type :: (Text.join ", " (vs.map hex)).words := by
  rw [text_integerLine, Text.words_append_cons (by decide) (by decide),
    Text.words_append_cons (by decide) (by decide), Text.words_space_cons,
    Text.words_append_cons (by decide) (by decide), (isDirective_directive type).isWord.words_eq,
    Text.words_nil, List.append_nil, List.singleton_append]

theorem notMem_join_hex {b : UInt8} (hb : b ∉ Text.ofString ", ")
    (hhex : b ∉ Text.ofString "-$0123456789abcdef") (vs : List Int64) :
    b ∉ Text.join ", " (vs.map hex) := by
  refine Text.notMem_join hb fun t ht => ?_
  obtain ⟨v, -, rfl⟩ := List.mem_map.mp ht
  exact fun h => hhex (Text.mem_of_mem_hex h)

theorem semicolon_mem_integerLine :
    byte ';' ∈ (integerLine label type vs).text ↔ byte ';' ∈ label := by
  have hdirective := (isDirective_directive type).noSemicolon
  have hjoin := notMem_join_hex (b := byte ';') (by decide) (by decide) vs
  rw [text_integerLine]
  simp only [List.mem_append, List.mem_cons, List.not_mem_nil, hdirective, hjoin]
  simp [show byte ';' ≠ Text.tab by decide, show byte ';' ≠ Text.space by decide,
    show byte ';' ≠ Text.newline by decide]

/-- The arguments of a data line, with the blanks between them left out. -/
theorem flatten_args (vs : List Int64) :
    (Text.join ", " (vs.map hex)).words.flatten = Text.join [byte ','] (vs.map hex) := by
  refine Text.flatten_words_join fun t ht => ?_
  obtain ⟨v, -, rfl⟩ := List.mem_map.mp ht
  exact fun b => Text.isVisible_of_mem_hex

theorem join_hex_ne_nil (hvs : vs ≠ []) : Text.join [byte ','] (vs.map hex) ≠ [] := by
  obtain ⟨v, vs, rfl⟩ := List.exists_cons_of_ne_nil hvs
  have hne : hex v ≠ [] := by
    rw [hex]
    split <;> simp [Text.ofString]
  cases vs with
  | nil => simpa [Text.join, List.intercalate] using hne
  | cons w vs => simp [Text.join]

/-- After a label with a word that looks like a directive, the directive counts as a value. -/
theorem read_integerLine_ne_ok {w : Text} (hlabel : byte ';' ∉ label) (hw : w ∈ label.words)
    (hdot : Text.startsWith "." w) (found : Directive) :
    Directive.read (integerLine label type vs).text ≠ .ok found := by
  have hfirst : label.words.dropWhile (!Text.startsWith "." ·) ≠ [] := by
    rw [ne_eq, List.dropWhile_eq_nil_iff]
    exact fun h => by simpa [hdot] using h w hw
  obtain ⟨name, rest, hrest⟩ := List.exists_cons_of_ne_nil hfirst
  have hwords : (integerLine label type vs).text.words.dropWhile (!Text.startsWith "." ·) =
      name :: (rest ++ directive type :: (Text.join ", " (vs.map hex)).words) := by
    rw [words_integerLine, List.dropWhile_append, hrest]
    rfl
  -- The directive is among the arguments, and no integer holds its dot.
  have hmem : byte '.' ∈ (rest ++ directive type :: (Text.join ", " (vs.map hex)).words).flatten :=
    List.mem_flatten.mpr ⟨directive type, by simp, (isDirective_directive type).dot_mem⟩
  rw [ne_eq, Directive.read_eq_ok_iff (mt semicolon_mem_integerLine.mp hlabel) hwords
    (List.ne_nil_of_mem hmem)]
  rintro ⟨ws, hws, -⟩
  exact Directive.dot_notMem_of_readValues hws hmem

theorem read_integerLine_eq_ok_iff {found : Directive} (hlabel : byte ';' ∉ label)
    (hdot : ∀ w ∈ label.words, Text.startsWith "." w = false) (hvs : vs ≠ []) :
    Directive.read (integerLine label type vs).text = .ok found ↔
      ∃ ws, Directive.readValues (vs.map hex) = .ok ws ∧ found = ⟨directive type, ws⟩ := by
  have hwords : (integerLine label type vs).text.words.dropWhile (!Text.startsWith "." ·) =
      directive type :: (Text.join ", " (vs.map hex)).words := by
    rw [words_integerLine, List.dropWhile_append_of_pos (by simpa using hdot)]
    simp [(isDirective_directive type).dotted]
  have hcomma : ∀ t ∈ vs.map hex, byte ',' ∉ t := by
    intro t ht
    obtain ⟨v, -, rfl⟩ := List.mem_map.mp ht
    exact fun h => absurd (Text.mem_of_mem_hex h) (by decide)
  have hsplit : List.splitOn (byte ',') (Text.join [byte ','] (vs.map hex)) = vs.map hex :=
    List.splitOn_intercalate _ hcomma (by simpa using hvs)
  rw [Directive.read_eq_ok_iff (mt semicolon_mem_integerLine.mp hlabel) hwords
    (by rw [flatten_args]; exact join_hex_ne_nil hvs), flatten_args, hsplit]

theorem readValues_map_hex_iff :
    Directive.readValues (vs.map hex) = .ok vs ↔ ∀ v ∈ vs, v ≠ Int64.minValue := by
  rw [Directive.readValues_eq_ok_iff, List.forall₂_map_left_iff, List.forall₂_same]
  simp only [parse?_hex_iff]

def byteValue (b : UInt8) : Int64 := Int64.ofNat b.toNat

theorem toInt_byteValue (b : UInt8) : (byteValue b).toInt = b.toNat :=
  Int64.toInt_ofNat_of_lt (by have := b.toNat_lt; omega)

theorem map_hexByte (bytes : List UInt8) : bytes.map hexByte = (bytes.map byteValue).map hex := by
  rw [List.map_map]
  rfl

theorem byteValue_ne_minValue (b : UInt8) : byteValue b ≠ Int64.minValue := by
  intro h
  have hint := toInt_byteValue b
  rw [h, Int64.toInt_minValue] at hint
  omega

/-- What keeps integers from being read back, apart from a comment in the label. -/
theorem read_integerLine_iff (hlabel : byte ';' ∉ label) (hvs : vs ≠ []) :
    Directive.read (integerLine label type vs).text = .ok ⟨directive type, vs⟩ ↔
      (∀ w ∈ label.words, Text.startsWith "." w = false) ∧ ∀ v ∈ vs, v ≠ Int64.minValue := by
  by_cases hdot : ∀ w ∈ label.words, Text.startsWith "." w = false
  · rw [and_iff_right hdot, read_integerLine_eq_ok_iff hlabel hdot hvs, ← readValues_map_hex_iff]
    simp
  · refine iff_of_false ?_ fun h => hdot h.1
    simp only [not_forall, Bool.not_eq_false] at hdot
    obtain ⟨w, hw, hstart⟩ := hdot
    exact read_integerLine_ne_ok hlabel hw hstart _

/-- A comment that starts in the label hides the directive. -/
theorem read_integerLine_of_mem (h : byte ';' ∈ label) :
    Directive.read (integerLine label type vs).text = Directive.read label := by
  rw [text_integerLine, Directive.read, Text.fst_cut_append_of_mem h, Directive.read]

end Storage

/-! ### Scalars -/

section Scalars

open Text (byte)

/-- Integers read back from hexadecimal and from decimal text, and declared integers from the data
line that reserves the variable. The exceptions are the least integer, and for data lines a label
that holds a comment or a word with a leading dot. -/
theorem integer_reads_back_iff (v : Int64) :
    (Value.parse? (hex v) = some (.int v) ↔ v ≠ Int64.minValue) ∧
    (Value.parse? (Value.int v).text = some (.int v) ↔ v ≠ Int64.minValue) ∧
    ∀ (sets : Charsets) (heap : Heap) (d : Decl) (type : DataType), d.type = .known type →
      type ∈ [.ubyte, .byte, .uword, .word] → d.value.getD (.int 0) = .int v →
      ∃ line : DataLine, d.storage sets heap = .ok [line] ∧
        (byte ';' ∉ d.name →
          (Directive.read line.text = .ok ⟨Storage.directive type, [v]⟩ ↔
            (∀ w ∈ d.name.words, Text.startsWith "." w = false) ∧ v ≠ Int64.minValue)) ∧
        (byte ';' ∈ d.name → Directive.read line.text = Directive.read d.name) := by
  refine ⟨parse?_hex_iff, parse?_text_iff, fun sets heap d type htype hscalar hvalue => ?_⟩
  refine ⟨Storage.integerLine d.name type [v], ?_, fun hlabel => ?_,
    Storage.read_integerLine_of_mem⟩
  · rw [Decl.storage, htype]
    simp only [List.mem_cons, List.not_mem_nil, or_false] at hscalar
    obtain rfl | rfl | rfl | rfl := hscalar
    all_goals
      dsimp only
      rw [hvalue]
      rfl
  · rw [Storage.read_integerLine_iff hlabel (by simp), List.forall_mem_singleton]

theorem integer_reads_back_iff_word : Value.parse? (hex (-300)) = some (.int (-300)) ∧
    ∃ line : DataLine,
      Decl.storage ⟨.petscii, .screencodes⟩ []
        ⟨"main.step", .known .word, some (.int (-300)), 0, false⟩ = .ok [line] ∧
      Directive.read line.text = .ok ⟨".sint", [-300]⟩ := by
  obtain ⟨hhex, -, hdecl⟩ := integer_reads_back_iff (-300)
  obtain ⟨line, hline, hread, -⟩ := hdecl ⟨.petscii, .screencodes⟩ []
    ⟨"main.step", .known .word, some (.int (-300)), 0, false⟩ .word rfl (by decide) rfl
  exact ⟨hhex.mpr (by decide), line, hline, (hread (by decide)).mpr ⟨by decide, by decide⟩⟩

/-- The least integer does not read back. Its hexadecimal text is no number, and its decimal text
is a float. -/
theorem minValue_not_read_back : Value.parse? (hex Int64.minValue) = none ∧
    (Value.parse? (Value.int Int64.minValue).text).any Value.isFloat ∧
    Decl.storage ⟨.petscii, .screencodes⟩ []
      ⟨"main.step", .known .word, some (.int Int64.minValue), 0, false⟩ =
      .ok [Storage.integerLine "main.step" .word [Int64.minValue]] ∧
    Directive.read (Storage.integerLine "main.step" .word [Int64.minValue]).text =
      .error (.badNumber "-$8000000000000000") := by
  refine ⟨by decide, by decide, rfl, by decide⟩

end Scalars

/-! ### Arrays -/

namespace Storage

section Chunks

variable {α β : Type} {n : Nat}

theorem chunks_cons (n : Nat) (a : α) (l : List α) :
    chunks n (a :: l) = (a :: l.take (n - 1)) :: chunks n (l.drop (n - 1)) := by
  rw [chunks]

theorem chunks_map (f : α → β) (l : List α) :
    chunks n (l.map f) = (chunks n l).map (List.map f) := by
  fun_induction chunks n l with
  | case1 => rw [List.map_nil, chunks, List.map_nil]
  | case2 a l ih =>
    rw [List.map_cons, chunks_cons, ← List.map_take, ← List.map_drop, ih, List.map_cons,
      List.map_cons]

theorem flatten_chunks (l : List α) : (chunks n l).flatten = l := by
  fun_induction chunks n l with
  | case1 => rfl
  | case2 a l ih => rw [List.flatten_cons, ih, List.cons_append, List.take_append_drop]

theorem length_chunks (hn : 0 < n) (l : List α) :
    (chunks n l).length = (l.length + (n - 1)) / n := by
  fun_induction chunks n l with
  | case1 => rw [List.length_nil, List.length_nil, Nat.zero_add, Nat.div_eq_of_lt (by omega)]
  | case2 a l ih =>
    have hsum : (a :: l).length + (n - 1) = l.length + n := by
      rw [List.length_cons]
      omega
    rw [List.length_cons, ih, List.length_drop, hsum, Nat.add_div_right _ hn]
    rcases Nat.lt_or_ge l.length (n - 1) with hlt | hle
    · rw [Nat.div_eq_of_lt (by omega), Nat.div_eq_of_lt (by omega)]
    · rw [Nat.sub_add_cancel hle]

theorem length_of_mem_chunks (hn : 0 < n) {l c : List α} (h : c ∈ chunks n l) :
    1 ≤ c.length ∧ c.length ≤ n := by
  fun_induction chunks n l with
  | case1 => cases h
  | case2 a l ih =>
    rcases List.mem_cons.mp h with rfl | h
    · rw [List.length_cons, List.length_take]
      omega
    · exact ih h

/-- All but the last are full. -/
theorem length_of_mem_dropLast_chunks (hn : 0 < n) {l c : List α} (h : c ∈ (chunks n l).dropLast) :
    c.length = n := by
  fun_induction chunks n l with
  | case1 => cases h
  | case2 a l ih =>
    -- A full piece is followed by another, that is, elements are left for it.
    cases hrest : l.drop (n - 1) with
    | nil =>
      rw [hrest, chunks] at h
      cases h
    | cons b rest =>
      have hlength : n - 1 < l.length := by
        have := congrArg List.length hrest
        rw [List.length_drop, List.length_cons] at this
        omega
      rw [hrest, chunks_cons, List.dropLast_cons_of_ne_nil (by simp), ← chunks_cons, ← hrest,
        List.mem_cons] at h
      rcases h with rfl | h
      · rw [List.length_cons, List.length_take]
        omega
      · exact ih h

theorem chunks_of_length_le {l : List α} (hne : l ≠ []) (h : l.length ≤ n) :
    chunks n l = [l] := by
  obtain ⟨a, l, rfl⟩ := List.exists_cons_of_ne_nil hne
  have hle : l.length ≤ n - 1 := by
    rw [List.length_cons] at h
    omega
  rw [chunks_cons, List.take_of_length_le hle, List.drop_of_length_le hle, chunks]

end Chunks

variable {label : Text} {type : DataType} {vs : List Int64}

theorem listLines_hex (label : Text) (type : DataType) (vs : List Int64) :
    listLines label (directive type) (vs.map hex) =
      if vs.length ≤ perLine then [integerLine label type vs]
      else .heading label none :: (chunks perLine vs).map (integerLine [] type) := by
  rw [listLines, List.length_map, chunks_map, List.map_map]
  rfl

theorem isLine_integerLine (h : Text.newline ∉ label) (type : DataType) (vs : List Int64) :
    Text.IsLine (integerLine label type vs).text := by
  have hdirective := (isDirective_directive type).noNewline
  have hjoin := notMem_join_hex (b := Text.newline) (by decide) (by decide) vs
  refine ⟨label ++ Text.tab :: (directive type ++
    Text.space :: Text.space :: Text.join ", " (vs.map hex)), ?_, ?_⟩
  · simp only [List.mem_append, List.mem_cons, h, hdirective, hjoin]
    simp [show Text.newline ≠ Text.tab by decide, show Text.newline ≠ Text.space by decide]
  · rw [text_integerLine]
    simp

theorem lines_integerLine (h : Text.newline ∉ label) :
    Text.lines ([integerLine label type vs].flatMap DataLine.text) =
      [(integerLine label type vs).text] :=
  Text.lines_flatten (List.forall_mem_singleton.mpr (isLine_integerLine h type vs))

theorem lines_rows (h : Text.newline ∉ label) (rows : List (List Int64)) :
    Text.lines ((.heading label none :: rows.map (integerLine [] type)).flatMap DataLine.text) =
      (label ++ [Text.newline]) :: rows.map fun row => (integerLine [] type row).text := by
  have hheading : (DataLine.heading label none).text = label ++ [Text.newline] := by
    simp [DataLine.text]
  have hlines : ∀ l ∈ (label ++ [Text.newline]) :: rows.map fun row =>
      (integerLine [] type row).text, Text.IsLine l := by
    rw [List.forall_mem_cons, List.forall_mem_map]
    exact ⟨⟨label, h, rfl⟩, fun row _ => isLine_integerLine (by simp) type row⟩
  rw [List.flatMap_cons, List.flatMap_map, hheading, List.flatMap_def, ← List.flatten_cons]
  exact Text.lines_flatten hlines

/-- The integers after a heading, row by row. -/
theorem forall₂_read_rows (hvs : ∀ v ∈ vs, v ≠ Int64.minValue) :
    List.Forall₂ (fun line row => Directive.read line = .ok ⟨directive type, row⟩)
      ((chunks perLine vs).map fun row => (integerLine [] type row).text) (chunks perLine vs) := by
  rw [List.forall₂_map_left_iff, List.forall₂_same]
  intro row hrow
  have hne : row ≠ [] := List.length_pos_iff.mp (length_of_mem_chunks (by decide) hrow).1
  refine (read_integerLine_iff (by simp) hne).mpr ⟨by simp, fun v hv => hvs v ?_⟩
  rw [← flatten_chunks (n := perLine) vs]
  exact List.mem_flatten_of_mem hrow hv

end Storage

section Arrays

open Text (byte)

/-- A name without white space is its only word, if it is not empty. -/
theorem startsWith_of_mem_words {name w : Text}
    (hblank : ∀ q ∈ Text.pieces name, q.isBlank = false)
    (hdot : Text.startsWith "." name = false) (hw : w ∈ name.words) :
    Text.startsWith "." w = false := by
  by_cases hne : name = []
  · rw [hne] at hw
    cases hw
  · have hword : Text.IsWord name := ⟨hne, hblank⟩
    rw [hword.words_eq, List.mem_singleton] at hw
    rwa [hw]

theorem Decl.storage_array (sets : Charsets) {heap : Heap} {d : Decl} {type : DataType}
    {p : Payload} (htype : d.type = .known type)
    (harray : type ∈ [.arrayUB, .arrayB, .arrayUW, .arrayW]) (hheap : d.heap ≠ 0)
    (hp : heap.find? d.heap = some p) (hne : p.array ≠ []) : d.storage sets heap =
      .ok (Storage.listLines d.name (Storage.directive type) (p.array.map hex)) := by
  have hpayload : Storage.payload heap d.heap = .ok p := by
    simp [Storage.payload, hp, hheap]
  rw [Decl.storage, htype]
  simp only [List.mem_cons, List.not_mem_nil, or_false] at harray
  obtain rfl | rfl | rfl | rfl := harray
  all_goals
    dsimp only
    rw [hpayload]
    simp [bind, Except.bind, Storage.intArray, hne]

theorem directive_array {type : DataType} (h : type ∈ [.arrayUB, .arrayB, .arrayUW, .arrayW]) :
    (type, Storage.directive type) ∈ ([(.arrayUB, ".byte"), (.arrayB, ".char"), (.arrayUW, ".word"),
      (.arrayW, ".sint")] : List (DataType × Text)) := by
  simp only [List.mem_cons, List.not_mem_nil, or_false] at h
  obtain rfl | rfl | rfl | rfl := h
  all_goals decide

/-- The lines of an integer array hold the array. Up to sixteen integers stand beside the name. More
stand in rows after a line with the name, and all rows but the last are full. -/
theorem array_reads_back (sets : Charsets) {heap : Heap} {d : Decl} {type : DataType} {p : Payload}
    (htype : d.type = .known type) (harray : type ∈ [.arrayUB, .arrayB, .arrayUW, .arrayW])
    (hheap : d.heap ≠ 0) (hp : heap.find? d.heap = some p) (hne : p.array ≠ [])
    (hmin : ∀ v ∈ p.array, Int64.minValue < v)
    (hblank : ∀ q ∈ Text.pieces d.name, q.isBlank = false) (hcomment : byte ';' ∉ d.name)
    (hdot : Text.startsWith "." d.name = false) :
    ∃ (lines : List DataLine) (data : List Text) (rows : List (List Int64)) (name : Text),
      (type, name) ∈ ([(.arrayUB, ".byte"), (.arrayB, ".char"), (.arrayUW, ".word"),
        (.arrayW, ".sint")] : List (DataType × Text)) ∧
      d.storage sets heap = .ok lines ∧
      Text.lines (lines.flatMap DataLine.text) =
        (if p.array.length ≤ 16 then data else (d.name ++ [Text.newline]) :: data) ∧
      (p.array.length ≤ 16 → ∃ line, data = [line] ∧ d.name <+: line) ∧
      data.length = (p.array.length + 15) / 16 ∧
      List.Forall₂ (fun line row => Directive.read line = .ok ⟨name, row⟩) data rows ∧
      rows.flatten = p.array ∧ (∀ row ∈ rows.dropLast, row.length = 16) ∧
      ∀ row ∈ rows, 1 ≤ row.length ∧ row.length ≤ 16 := by
  have hmin' : ∀ v ∈ p.array, v ≠ Int64.minValue := fun v hv => (Int64.ne_of_lt (hmin v hv)).symm
  have hnewline : Text.newline ∉ d.name := fun h =>
    absurd (hblank _ (Text.mem_pieces_of_mem (by decide) h)) (by decide)
  have hlength := Storage.length_chunks (n := Storage.perLine) (by decide) p.array
  have hrows : (Storage.chunks Storage.perLine p.array).flatten = p.array ∧
      (∀ row ∈ (Storage.chunks Storage.perLine p.array).dropLast, row.length = 16) ∧
      ∀ row ∈ Storage.chunks Storage.perLine p.array, 1 ≤ row.length ∧ row.length ≤ 16 :=
    ⟨Storage.flatten_chunks _,
      fun row => Storage.length_of_mem_dropLast_chunks (n := Storage.perLine) (by decide),
      fun row => Storage.length_of_mem_chunks (n := Storage.perLine) (by decide)⟩
  have hstorage := Decl.storage_array sets htype harray hheap hp hne
  rw [Storage.listLines_hex] at hstorage
  -- A short array is the only one of its rows, so both layouts hold the same rows.
  by_cases hshort : p.array.length ≤ Storage.perLine
  · rw [if_pos hshort] at hstorage
    have hone := Storage.chunks_of_length_le (n := Storage.perLine) hne hshort
    refine ⟨_, [(Storage.integerLine d.name type p.array).text], _, _, directive_array harray,
      hstorage, ?_, ?_, ?_, ?_, hrows⟩
    · rw [Storage.lines_integerLine hnewline]
      exact (if_pos hshort).symm
    · refine fun _ => ⟨_, rfl, ?_⟩
      rw [Storage.text_integerLine]
      exact List.prefix_append _ _
    · rw [hone] at hlength
      exact hlength
    · rw [hone, List.forall₂_cons]
      exact ⟨(Storage.read_integerLine_iff hcomment hne).mpr
        ⟨fun w => startsWith_of_mem_words hblank hdot, hmin'⟩, .nil⟩
  · rw [if_neg hshort] at hstorage
    refine ⟨_, (Storage.chunks Storage.perLine p.array).map fun row =>
      (Storage.integerLine [] type row).text, _, _, directive_array harray, hstorage, ?_,
      fun h => absurd h hshort, ?_, Storage.forall₂_read_rows hmin', hrows⟩
    · rw [Storage.lines_rows hnewline]
      exact (if_neg hshort).symm
    · rw [List.length_map]
      exact hlength

theorem array_reads_back_seventeen :
    ∃ (lines : List DataLine) (data : List Text) (rows : List (List Int64)),
      Decl.storage ⟨.petscii, .screencodes⟩ [(3, ⟨[], List.replicate 16 300 ++ [-1], []⟩)]
        ⟨"main.table", .known .arrayW, none, 3, false⟩ = .ok lines ∧
      Text.lines (lines.flatMap DataLine.text) = Text.ofString "main.table\n" :: data ∧
      data.length = 2 ∧
      List.Forall₂ (fun line row => Directive.read line = .ok ⟨".sint", row⟩) data rows ∧
      rows.flatten = List.replicate 16 300 ++ [-1] := by
  have hfind : Heap.find? [(3, ⟨[], List.replicate 16 300 ++ [-1], []⟩)] 3 =
      some ⟨[], List.replicate 16 300 ++ [-1], []⟩ := rfl
  have hmin : List.all (List.replicate 16 300 ++ [-1]) fun v : Int64 => Int64.minValue < v := by
    decide
  obtain ⟨lines, data, rows, name, hname, hstorage, hlines, -, hlength, hread, hflatten, -⟩ :=
    array_reads_back ⟨.petscii, .screencodes⟩
      (d := ⟨"main.table", .known .arrayW, none, 3, false⟩) rfl (by decide) (by decide) hfind
      (by decide) (fun v hv => of_decide_eq_true (List.all_eq_true.mp hmin v hv)) (by decide)
      (by decide) (by decide)
  obtain rfl : name = ".sint" := by simpa using hname
  exact ⟨lines, data, rows, hstorage, hlines, hlength, hread, hflatten⟩

end Arrays

end Stack6502
