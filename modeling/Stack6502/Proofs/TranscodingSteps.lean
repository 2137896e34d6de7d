import Stack6502.Proofs.CharacterCodes

/-!
# Transcoding step by step

A step writes one character after another. What becomes of each is decided by the bytes at its
place alone (`head`), and more bytes after them change nothing unless they are the beginning of a
character. Every statement about steps is an induction over these places. The first one is that a
step which takes its whole source writes what `encode` or `decode` gives, and these two undo each
other.
-/
namespace Stack6502

namespace Text

theorem firstChar?_append_of_some {t : Text} {p : Char × Nat} (h : firstChar? t = some p)
    (u : Text) : firstChar? (t ++ u) = some p := by
  revert h
  fun_cases firstChar? t with
  | case2 b t hb => simp [firstChar?, hb]
  | case3 b hb low high c t hlead hrange => simp [firstChar?, hb, hlead, hrange]
  | case5 b hb low high c d t hlead hrange => simp [firstChar?, hb, hlead, hrange]
  | case7 b hb low high c d e t hlead hrange =>
    rintro ⟨⟩
    simp only [firstChar?, List.cons_append, hb, if_false, hlead, hrange, if_true]
    rfl
  | _ => rintro ⟨⟩

/-- Bytes that are neither a character nor the beginning of one stay so. -/
theorem not_endsInsideChar_append {t : Text} (h : firstChar? t = none)
    (hfull : endsInsideChar t = false) (u : Text) :
    firstChar? (t ++ u) = none ∧ endsInsideChar (t ++ u) = false := by
  rcases t with - | ⟨b, t⟩
  · cases hfull
  have hb : ¬ b < 0x80 := fun hb => by simp [firstChar?, hb] at h
  cases hlead : lead b with
  | none => simp [firstChar?, endsInsideChar, hb, hlead]
  | some l =>
    obtain ⟨more, low, high⟩ := l
    simp only [firstChar?, endsInsideChar, hb, hlead, if_false] at h hfull
    simp only [firstChar?, endsInsideChar, hb, hlead, if_false, List.cons_append]
    -- A byte that is there already is out of its range, whatever follows.
    obtain rfl | rfl | rfl := more_of_lead hlead
    · rcases t with - | ⟨c, t⟩
      · cases hfull
      · simpa using h
    · rcases t with - | ⟨c, - | ⟨d, t⟩⟩
      · cases hfull
      · have hrange : (decide (low ≤ c) && decide (c ≤ high)) = false := hfull
        cases u <;> simp [hrange]
      · simpa using h
    · rcases t with - | ⟨c, - | ⟨d, - | ⟨e, t⟩⟩⟩
      · cases hfull
      · have hrange : (decide (low ≤ c) && decide (c ≤ high)) = false := hfull
        rcases u with - | ⟨d, - | ⟨e, u⟩⟩ <;> simp [hrange]
      · have hrange : (decide (low ≤ c) && decide (c ≤ high) && isTail d) = false := hfull
        cases u <;> simp [hrange]
      · simpa using h

theorem size_of_firstChar? {t : Text} {c : Char} {n : Nat} (h : firstChar? t = some (c, n)) :
    0 < n ∧ n ≤ t.length := by
  obtain ⟨rest, rfl, rfl⟩ := of_firstChar?_eq_some h
  rw [String.length_utf8EncodeChar, List.length_append, String.length_utf8EncodeChar]
  exact ⟨c.utf8Size_pos, Nat.le_add_right _ _⟩

theorem pieces_of_firstChar? {t : Text} {c : Char} {n : Nat} (h : firstChar? t = some (c, n)) :
    pieces t = .char c :: pieces (t.drop n) := by
  obtain ⟨hpos, hle⟩ := size_of_firstChar? h
  cases t with
  | nil => cases h
  | cons b t =>
    obtain ⟨m, rfl⟩ := Nat.exists_eq_add_one_of_ne_zero hpos.ne'
    rw [pieces, piecesFrom, h, List.drop_succ_cons, ← piecesFrom_eq_pieces_drop]
    rfl

theorem chars_ofChars (chars : List Char) : Text.chars (ofChars chars) = chars := by
  rw [Text.chars, pieces_ofChars, List.map_map]
  exact List.map_id _

end Text

def CharsetFault.shift (n : Nat) : CharsetFault → CharsetFault
  | .invalidUtf8 position => .invalidUtf8 (n + position)
  | .unencodable c => .unencodable c
  | .undecodable b => .undecodable b

namespace Charset

/-! ### Steps on from a place -/

def Stop.shift (n : Nat) : Stop → Stop
  | .noRoom => .noRoom
  | .needsMore => .needsMore
  | .fault f => .fault (f.shift n)

def Step.after (bytes : List UInt8) (n : Nat) (s : Step) : Step :=
  ⟨bytes ++ s.written, n + s.consumed, s.stop.map (Stop.shift n)⟩

theorem Stop.shift_zero (stop : Stop) : stop.shift 0 = stop := by
  rcases stop with - | - | (position | c | b) <;> simp [Stop.shift, CharsetFault.shift]

theorem Stop.shift_shift (m n : Nat) (stop : Stop) :
    (stop.shift n).shift m = stop.shift (m + n) := by
  rcases stop with - | - | (position | c | b) <;>
    simp [Stop.shift, CharsetFault.shift, Nat.add_assoc]

theorem Step.after_nil_zero (s : Step) : s.after [] 0 = s := by
  rw [Step.after, List.nil_append, Nat.zero_add, show Stop.shift 0 = id from funext Stop.shift_zero,
    Option.map_id]
  rfl

theorem Step.after_after (bytes others : List UInt8) (m n : Nat) (s : Step) :
    (s.after others n).after bytes m = s.after (bytes ++ others) (m + n) := by
  simp only [Step.after, List.append_assoc, Nat.add_assoc, Option.map_map]
  rw [show Stop.shift m ∘ Stop.shift n = Stop.shift (m + n) from funext (Stop.shift_shift m n)]

section Position

variable {cs : Charset} {atEnd : Bool}

theorem Step.write_after (bytes : List UInt8) (n : Nat) (s : Step) :
    (s.after [] n).write bytes = s.after bytes n := rfl

/-- Bytes before the source only count for positions. -/
theorem encodeStepFrom_eq {position skip room : Nat} {t : Text} (hskip : skip ≤ t.length) :
    cs.encodeStepFrom atEnd position skip room t =
      (cs.encodeStep room atEnd (t.drop skip)).after [] (position + skip) := by
  induction t generalizing position skip room with
  | nil =>
    obtain rfl := Nat.le_zero.mp hskip
    rfl
  | cons b t ih =>
    cases skip with
    | succ skip =>
      rw [encodeStepFrom, ih (by simpa using hskip), List.drop_succ_cons, Nat.add_right_comm,
        Nat.add_assoc]
    | zero =>
      rw [List.drop_zero, Nat.add_zero, encodeStep]
      cases hfirst : Text.firstChar? (b :: t) with
      | none =>
        simp only [encodeStepFrom, hfirst]
        split <;> rfl
      | some found =>
        obtain ⟨c, size⟩ := found
        have hsize := Text.size_of_firstChar? hfirst
        rw [List.length_cons] at hsize
        cases hcode : cs.encodeChar? c with
        | none =>
          simp only [encodeStepFrom, hfirst, hcode]
          rfl
        | some code =>
          cases room with
          | zero =>
            simp only [encodeStepFrom, hfirst, hcode]
            rfl
          | succ room =>
            simp only [encodeStepFrom, hfirst, hcode]
            rw [ih (by omega), ih (by omega), Step.write_after, Step.write_after, Step.after_after]
            simp only [Step.after, List.nil_append, Nat.add_assoc, Nat.zero_add]

theorem decodeStepFrom_eq (position room : Nat) (bs : List UInt8) :
    cs.decodeStepFrom position room bs = (cs.decodeStep room bs).after [] position := by
  induction bs generalizing position room with
  | nil => rfl
  | cons b bs ih =>
    rw [decodeStep]
    cases hchar : cs.decodeByte? b with
    | none =>
      simp only [decodeStepFrom, hchar]
      rfl
    | some c =>
      simp only [decodeStepFrom, hchar]
      split
      · rfl
      · rw [ih, ih, Step.write_after, Step.write_after, Step.after_after]
        rfl

end Position

/-! ### What stands at a place -/

inductive Direction
  | encoding
  | decoding
  deriving DecidableEq, Repr

def Direction.least : Direction → Nat
  | .encoding => 1
  | .decoding => 3

/-- A step in either direction. Decoding does not ask whether its source goes on. -/
def step (cs : Charset) : Direction → (room : Nat) → (atEnd : Bool) → List UInt8 → Step
  | .encoding, room, atEnd, t => cs.encodeStep room atEnd t
  | .decoding, room, _, t => cs.decodeStep room t

inductive Head
  /-- A character of `size` bytes, for which `bytes` are written. -/
  | char (bytes : List UInt8) (size : Nat)
  /-- The beginning of a character, of which there may be nothing yet. -/
  | cut
  | bad (fault : CharsetFault)
  deriving DecidableEq, Repr

def head (cs : Charset) : Direction → List UInt8 → Head
  | .encoding, t =>
    match Text.firstChar? t with
    | none => if Text.endsInsideChar t then .cut else .bad (.invalidUtf8 0)
    | some (c, size) =>
      match cs.encodeChar? c with
      | none => .bad (.unencodable c)
      | some code => .char [code] size
  | .decoding, [] => .cut
  | .decoding, b :: _ =>
    match cs.decodeByte? b with
    | none => .bad (.undecodable b)
    | some c => .char (Text.ofChar c) 1

section Head

variable {cs : Charset} {dir : Direction} {t : List UInt8} {bytes : List UInt8} {size : Nat}

theorem head_nil (cs : Charset) (dir : Direction) : cs.head dir [] = .cut := by
  cases dir <;> rfl

/-- Only the beginning of a character can become something else. -/
theorem head_append (h : cs.head dir t ≠ .cut) (u : List UInt8) :
    cs.head dir (t ++ u) = cs.head dir t := by
  cases dir with
  | encoding =>
    cases hfirst : Text.firstChar? t with
    | none =>
      cases hfull : Text.endsInsideChar t with
      | true => simp [head, hfirst, hfull] at h
      | false =>
        obtain ⟨hfirst', hfull'⟩ := Text.not_endsInsideChar_append hfirst hfull u
        simp [head, hfirst, hfull, hfirst', hfull']
    | some found => simp [head, hfirst, Text.firstChar?_append_of_some hfirst u]
  | decoding =>
    cases t with
    | nil => exact absurd rfl h
    | cons b t => rfl

theorem of_head_encoding (h : cs.head .encoding t = .char bytes size) : ∃ c code,
    Text.firstChar? t = some (c, size) ∧ cs.encodeChar? c = some code ∧ bytes = [code] := by
  cases hfirst : Text.firstChar? t with
  | none =>
    simp only [head, hfirst] at h
    split at h <;> cases h
  | some found =>
    obtain ⟨c, n⟩ := found
    cases hcode : cs.encodeChar? c with
    | none => simp [head, hfirst, hcode] at h
    | some code =>
      simp only [head, hfirst, hcode, Head.char.injEq] at h
      obtain ⟨rfl, rfl⟩ := h
      exact ⟨c, code, rfl, hcode, rfl⟩

theorem of_head_decoding (h : cs.head .decoding t = .char bytes size) : ∃ b rest c,
    t = b :: rest ∧ size = 1 ∧ cs.decodeByte? b = some c ∧ bytes = Text.ofChar c := by
  cases t with
  | nil => cases h
  | cons b rest =>
    cases hchar : cs.decodeByte? b with
    | none => simp [head, hchar] at h
    | some c =>
      simp only [head, hchar, Head.char.injEq] at h
      obtain ⟨rfl, rfl⟩ := h
      exact ⟨b, rest, c, rfl, rfl, hchar, rfl⟩

theorem length_ofChar_le {b : UInt8} {c : Char} (h : (b, c) ∈ cs.entries) :
    (Text.ofChar c).length ≤ 3 := by
  have hall : cs.entries.all fun p => (Text.ofChar p.2).length ≤ 3 := by cases cs <;> decide +kernel
  simpa using List.all_eq_true.mp hall (b, c) h

/-- A character is there with some byte, and fits in the least room. -/
theorem head_char_spec (h : cs.head dir t = .char bytes size) :
    0 < size ∧ size ≤ t.length ∧ bytes.length ≤ dir.least := by
  cases dir with
  | encoding =>
    obtain ⟨c, code, hfirst, -, rfl⟩ := of_head_encoding h
    obtain ⟨hpos, hle⟩ := Text.size_of_firstChar? hfirst
    exact ⟨hpos, hle, le_rfl⟩
  | decoding =>
    obtain ⟨b, rest, c, rfl, rfl, hchar, rfl⟩ := of_head_decoding h
    exact ⟨Nat.one_pos, Nat.le_add_left 1 _, length_ofChar_le (decodeByte?_eq_some_iff.mp hchar)⟩

end Head

/-! ### A step by the start of its source -/

/-- What a step makes of the start of its source. After a character `next` goes on with the room
that is left. -/
def Head.answer (room : Nat) (atEnd : Bool) (next : (room size : Nat) → Step) : Head → Step
  | .char bytes size =>
    if room < bytes.length then ⟨[], 0, some .noRoom⟩
    else (next (room - bytes.length) size).after bytes size
  | .cut => ⟨[], 0, some (if atEnd then .fault (.invalidUtf8 0) else .needsMore)⟩
  | .bad fault => ⟨[], 0, some (.fault fault)⟩

section Step

variable {cs : Charset} {dir : Direction} {t bytes : List UInt8} {size room : Nat} {atEnd : Bool}

theorem step_nil (cs : Charset) (dir : Direction) (room : Nat) (atEnd : Bool) :
    cs.step dir room atEnd [] = ⟨[], 0, none⟩ := by
  cases dir <;> rfl

theorem encodeStep_eq (ht : t ≠ []) :
    cs.encodeStep room atEnd t = (cs.head .encoding t).answer room atEnd
      fun room size => cs.encodeStep room atEnd (t.drop size) := by
  obtain ⟨b, t, rfl⟩ := List.exists_cons_of_ne_nil ht
  cases hfirst : Text.firstChar? (b :: t) with
  | none =>
    simp only [encodeStep, encodeStepFrom, head, hfirst]
    cases atEnd <;> cases Text.endsInsideChar (b :: t) <;> rfl
  | some found =>
    obtain ⟨c, size⟩ := found
    obtain ⟨hpos, hle⟩ := Text.size_of_firstChar? hfirst
    obtain ⟨n, rfl⟩ := Nat.exists_eq_add_one_of_ne_zero hpos.ne'
    cases hcode : cs.encodeChar? c with
    | none =>
      simp only [encodeStep, encodeStepFrom, head, hfirst, hcode]
      rfl
    | some code =>
      cases room with
      | zero =>
        simp only [encodeStep, encodeStepFrom, head, hfirst, hcode]
        rfl
      | succ room =>
        simp only [encodeStep, encodeStepFrom, head, hfirst, hcode]
        rw [Nat.add_sub_cancel, encodeStepFrom_eq (by simpa using hle), Step.write_after,
          Nat.zero_add, Nat.add_comm 1 n]
        rfl

theorem decodeStep_eq (ht : t ≠ []) :
    cs.decodeStep room t = (cs.head .decoding t).answer room atEnd
      fun room size => cs.decodeStep room (t.drop size) := by
  obtain ⟨b, t, rfl⟩ := List.exists_cons_of_ne_nil ht
  cases hchar : cs.decodeByte? b with
  | none =>
    simp only [decodeStep, decodeStepFrom, head, hchar]
    rfl
  | some c =>
    simp only [decodeStep, decodeStepFrom, head, hchar, Head.answer]
    rw [decodeStepFrom_eq, Step.write_after]
    rfl

theorem step_eq (ht : t ≠ []) :
    cs.step dir room atEnd t = (cs.head dir t).answer room atEnd
      fun room size => cs.step dir room atEnd (t.drop size) := by
  cases dir with
  | encoding => exact encodeStep_eq ht
  | decoding => exact decodeStep_eq ht

theorem ne_nil_of_head {h : Head} (ht : cs.head dir t = h) (hcut : h ≠ .cut) : t ≠ [] := by
  rintro rfl
  exact hcut (ht.symm.trans (head_nil cs dir))

theorem step_of_cut (ht : t ≠ []) (h : cs.head dir t = .cut) : cs.step dir room atEnd t =
    ⟨[], 0, some (if atEnd then .fault (.invalidUtf8 0) else .needsMore)⟩ := by
  rw [step_eq ht, h]
  rfl

theorem step_of_bad {fault : CharsetFault} (h : cs.head dir t = .bad fault) :
    cs.step dir room atEnd t = ⟨[], 0, some (.fault fault)⟩ := by
  rw [step_eq (ne_nil_of_head h (by simp)), h]
  rfl

theorem step_of_noRoom (h : cs.head dir t = .char bytes size) (hroom : room < bytes.length) :
    cs.step dir room atEnd t = ⟨[], 0, some .noRoom⟩ := by
  rw [step_eq (ne_nil_of_head h (by simp)), h]
  exact if_pos hroom

theorem step_of_char (h : cs.head dir t = .char bytes size) (hroom : bytes.length ≤ room) :
    cs.step dir room atEnd t =
      (cs.step dir (room - bytes.length) atEnd (t.drop size)).after bytes size := by
  rw [step_eq (ne_nil_of_head h (by simp)), h]
  exact if_neg (Nat.not_lt.mpr hroom)

/-- Induction over the places of a source. -/
theorem source_induction (cs : Charset) (dir : Direction) {motive : List UInt8 → Prop}
    (nil : motive []) (cut : ∀ t, t ≠ [] → cs.head dir t = .cut → motive t)
    (bad : ∀ t fault, cs.head dir t = .bad fault → motive t)
    (char : ∀ t bytes size, cs.head dir t = .char bytes size → motive (t.drop size) → motive t)
    (t : List UInt8) : motive t := by
  induction hlength : t.length using Nat.strong_induction_on generalizing t with
  | _ n ih =>
    cases hhead : cs.head dir t with
    | char bytes size =>
      obtain ⟨hpos, hle, -⟩ := head_char_spec hhead
      refine char t bytes size hhead (ih (t.drop size).length ?_ _ rfl)
      rw [List.length_drop]
      omega
    | cut =>
      by_cases ht : t = []
      · exact ht ▸ nil
      · exact cut t ht hhead
    | bad fault => exact bad t fault hhead

end Step

/-! ### Whole texts -/

def convert (cs : Charset) : Direction → List UInt8 → Except CharsetFault (List UInt8)
  | .encoding, t => cs.encode t
  | .decoding, t => cs.decode t

section Whole

variable {cs : Charset} {dir : Direction} {t out bytes : List UInt8} {size room : Nat}

theorem encode_of_firstChar? {c : Char} (h : Text.firstChar? t = some (c, size)) :
    cs.encode t = .ok out ↔ ∃ code, cs.encodeChar? c = some code ∧
      ∃ rest, cs.encode (t.drop size) = .ok rest ∧ out = code :: rest := by
  rw [encode, Text.pieces_of_firstChar? h, encodeFrom]
  cases cs.encodeChar? c with
  | none => simp
  | some code =>
    -- Where a text starts makes no difference unless it is refused.
    simp only [bind_eq_ok_iff, encodeFrom_eq_ok_iff, encode, pure, Except.pure, Except.ok.injEq,
      Option.some.injEq, exists_eq_left']
    simp only [eq_comm (a := out)]

theorem decode_cons {b : UInt8} : cs.decode (b :: t) = .ok out ↔
    ∃ c, cs.decodeByte? b = some c ∧
      ∃ rest, cs.decode t = .ok rest ∧ out = Text.ofChar c ++ rest := by
  rw [decode]
  cases cs.decodeByte? b with
  | none => simp
  | some c =>
    simp only [bind_eq_ok_iff, pure, Except.pure, Except.ok.injEq, Option.some.injEq,
      exists_eq_left']
    simp only [eq_comm (a := out)]

theorem convert_nil (cs : Charset) (dir : Direction) : cs.convert dir [] = .ok [] := by
  cases dir <;> rfl

theorem convert_of_char (h : cs.head dir t = .char bytes size) : cs.convert dir t = .ok out ↔
    ∃ rest, cs.convert dir (t.drop size) = .ok rest ∧ out = bytes ++ rest := by
  cases dir with
  | encoding =>
    obtain ⟨c, code, hfirst, hcode, rfl⟩ := of_head_encoding h
    simp [convert, encode_of_firstChar? hfirst, hcode]
  | decoding =>
    obtain ⟨b, rest, c, rfl, rfl, hchar, rfl⟩ := of_head_decoding h
    simp [convert, decode_cons, hchar]

theorem convert_ne_ok (ht : t ≠ []) (h : ∀ bytes size, cs.head dir t ≠ .char bytes size) :
    cs.convert dir t ≠ .ok out := by
  obtain ⟨b, t, rfl⟩ := List.exists_cons_of_ne_nil ht
  cases dir with
  | encoding =>
    cases hfirst : Text.firstChar? (b :: t) with
    | none =>
      rw [convert, encode, Text.pieces, Text.piecesFrom, hfirst]
      simp [encodeFrom]
    | some found =>
      obtain ⟨c, n⟩ := found
      cases hcode : cs.encodeChar? c with
      | none => simp [convert, encode_of_firstChar? hfirst, hcode]
      | some code => simp [head, hfirst, hcode] at h
  | decoding =>
    cases hchar : cs.decodeByte? b with
    | none => simp [convert, decode_cons, hchar]
    | some c => simp [head, hchar] at h

theorem Step.after_eq_iff {s : Step} {n length : Nat} (hle : n ≤ length) :
    s.after bytes n = ⟨out, length, none⟩ ↔
      ∃ rest, s = ⟨rest, length - n, none⟩ ∧ out = bytes ++ rest := by
  obtain ⟨written, consumed, stop⟩ := s
  simp only [Step.after, Step.mk.injEq, Option.map_eq_none_iff]
  constructor
  · rintro ⟨rfl, rfl, rfl⟩
    exact ⟨written, ⟨rfl, by omega, rfl⟩, rfl⟩
  · rintro ⟨rest, ⟨rfl, rfl, rfl⟩, rfl⟩
    exact ⟨rfl, by omega, rfl⟩

/-- A step takes the whole source if that can be converted and there is room for it. -/
theorem step_eq_iff (dir : Direction) (atEnd : Bool) :
    cs.step dir room atEnd t = ⟨out, t.length, none⟩ ↔
      cs.convert dir t = .ok out ∧ out.length ≤ room := by
  induction t using source_induction cs dir generalizing room out with
  | nil =>
    rw [step_nil, convert_nil]
    constructor
    · rintro ⟨⟩
      exact ⟨rfl, Nat.zero_le _⟩
    · rintro ⟨⟨⟩, -⟩
      rfl
  | cut t ht hhead =>
    rw [step_of_cut ht hhead]
    exact iff_of_false (by simp) fun h => convert_ne_ok ht (by simp [hhead]) h.1
  | bad t fault hhead =>
    rw [step_of_bad hhead]
    exact iff_of_false (by simp) fun h =>
      convert_ne_ok (ne_nil_of_head hhead (by simp)) (by simp [hhead]) h.1
  | char t bytes size hhead ih =>
    rw [convert_of_char hhead]
    by_cases hroom : bytes.length ≤ room
    · rw [step_of_char hhead hroom, Step.after_eq_iff (head_char_spec hhead).2.1,
        ← List.length_drop]
      simp only [ih]
      constructor
      · rintro ⟨rest, ⟨hrest, hle⟩, rfl⟩
        exact ⟨⟨rest, hrest, rfl⟩, by rw [List.length_append]; omega⟩
      · rintro ⟨⟨rest, hrest, rfl⟩, hle⟩
        rw [List.length_append] at hle
        exact ⟨rest, ⟨hrest, by omega⟩, rfl⟩
    · rw [step_of_noRoom hhead (by omega)]
      refine iff_of_false (by simp) ?_
      rintro ⟨⟨rest, -, rfl⟩, hle⟩
      rw [List.length_append] at hle
      omega

end Whole

/-- Encoding and decoding undo each other. No entry of a table takes the place of another, what one
way accepts the other way leads back, and there is one code for each character. A step that takes
its whole source does the same. -/
theorem encode_decode_inverse (cs : Charset) :
    (∀ b c, (b, c) ∈ cs.entries → cs.encodeChar? c = some b ∧ cs.decodeByte? b = some c) ∧
    (∀ t codes, cs.encode t = .ok codes → cs.decode codes = .ok t) ∧
    (∀ codes t, cs.decode codes = .ok t →
      cs.encode t = .ok codes ∧ codes.length = t.chars.length) ∧
    (∀ room atEnd t codes, cs.encodeStep room atEnd t = ⟨codes, t.length, none⟩ ↔
      cs.encode t = .ok codes ∧ codes.length ≤ room) ∧
    (∀ room codes t, cs.decodeStep room codes = ⟨t, codes.length, none⟩ ↔
      cs.decode codes = .ok t ∧ t.length ≤ room) := by
  refine ⟨fun b c h => ⟨encodeChar?_eq_some_iff.mpr h, decodeByte?_eq_some_iff.mpr h⟩,
    fun t codes => decode_eq_ok_iff_encode.mpr, fun codes t h => ?_,
    fun room atEnd t codes => step_eq_iff .encoding atEnd,
    fun room codes t => step_eq_iff .decoding true⟩
  obtain ⟨chars, rfl, hcodes⟩ := decode_eq_ok_iff.mp h
  refine ⟨decode_eq_ok_iff_encode.mp h, ?_⟩
  rw [Text.chars_ofChars]
  exact hcodes.length_eq.symm

/-- Characters of one, two and three bytes. -/
theorem encode_decode_inverse_arrows :
    let t := Text.ofString "Go £5 ↑\n"
    let codes := [0xc7, 0x4f, 0x20, 0x5c, 0x35, 0x20, 0x5e, 0x0d]
    t.length = 11 ∧ t.chars.length = 8 ∧ petscii.encode t = .ok codes ∧
      petscii.decode codes = .ok t ∧ petscii.encodeStep 8 true t = ⟨codes, 11, none⟩ := by
  intro t codes
  obtain ⟨-, hdecode, hencode, hstep, -⟩ := encode_decode_inverse petscii
  have ht : petscii.encode t = .ok codes := by decide +kernel
  have hcodes := hdecode t codes ht
  exact ⟨by decide +kernel, (hencode codes t hcodes).2.symm, ht, hcodes,
    (hstep 8 true t codes).mpr ⟨ht, le_rfl⟩⟩

end Charset

end Stack6502
