import Stack6502.Proofs.TranscodingSteps

/-!
# Transcoding in chunks

A source may come in chunks of any size, and what is written may go to destinations of any size
that holds a character. The caller carries over the bytes that a step leaves, takes a fresh
destination when there is no room, and waits for the next chunk when a character is not complete.
Each of its calls does a part of one large step on the whole source, so that all of them together
write the same and end the same way.
-/
namespace Stack6502.Charset

/-! ### One large step -/

/-- The step on a whole source with room for all that can come of it. -/
def whole (cs : Charset) (dir : Direction) (t : List UInt8) : Step :=
  cs.step dir (dir.least * t.length) true t

section Whole

variable {cs : Charset} {dir : Direction} {t u bytes : List UInt8} {size room other : Nat}
  {atEnd : Bool}

theorem length_le_of_large (h : cs.head dir t = .char bytes size)
    (hroom : dir.least * t.length ≤ room) :
    bytes.length ≤ room ∧ dir.least * (t.drop size).length ≤ room - bytes.length := by
  obtain ⟨hpos, hle, hbytes⟩ := head_char_spec h
  have hsize : dir.least ≤ dir.least * size := Nat.le_mul_of_pos_right _ hpos
  have hsplit : dir.least * size + dir.least * (t.drop size).length = dir.least * t.length := by
    rw [← Nat.mul_add, List.length_drop, Nat.add_sub_cancel' hle]
  omega

theorem step_of_large (hroom : dir.least * t.length ≤ room)
    (hother : dir.least * t.length ≤ other) :
    cs.step dir room true t = cs.step dir other true t := by
  induction t using source_induction cs dir generalizing room other with
  | nil => rw [step_nil, step_nil]
  | cut t ht hhead => rw [step_of_cut ht hhead, step_of_cut ht hhead]
  | bad t fault hhead => rw [step_of_bad hhead, step_of_bad hhead]
  | char t bytes size hhead ih =>
    obtain ⟨hle, hrest⟩ := length_le_of_large hhead hroom
    obtain ⟨hle', hrest'⟩ := length_le_of_large hhead hother
    rw [step_of_char hhead hle, step_of_char hhead hle', ih hrest hrest']

theorem step_eq_whole (hroom : dir.least * t.length ≤ room) :
    cs.step dir room true t = cs.whole dir t := step_of_large hroom le_rfl

theorem whole_of_char (h : cs.head dir t = .char bytes size) :
    cs.whole dir t = (cs.whole dir (t.drop size)).after bytes size := by
  obtain ⟨hle, hrest⟩ := length_le_of_large h le_rfl
  rw [whole, step_of_char h hle, step_eq_whole hrest]

/-- The same with more bytes after the character. -/
theorem whole_append_of_char (h : cs.head dir t = .char bytes size) (u : List UInt8) :
    cs.whole dir (t ++ u) = (cs.whole dir (t.drop size ++ u)).after bytes size := by
  have happend : cs.head dir (t ++ u) = .char bytes size := (head_append (by simp [h]) u).trans h
  rw [whole_of_char happend, List.drop_append_of_le_length (head_char_spec h).2.1]

/-- Every step is a first part of the large one, also if the source goes on. -/
theorem whole_append_eq_after (cs : Charset) (dir : Direction) (room : Nat) (atEnd : Bool)
    (t u : List UInt8) : cs.whole dir (t ++ u) =
      (cs.whole dir (t.drop (cs.step dir room atEnd t).consumed ++ u)).after
        (cs.step dir room atEnd t).written (cs.step dir room atEnd t).consumed := by
  induction t using source_induction cs dir generalizing room with
  | nil => rw [step_nil, List.drop_zero, Step.after_nil_zero]
  | cut t ht hhead => rw [step_of_cut ht hhead, List.drop_zero, Step.after_nil_zero]
  | bad t fault hhead => rw [step_of_bad hhead, List.drop_zero, Step.after_nil_zero]
  | char t bytes size hhead ih =>
    by_cases hroom : bytes.length ≤ room
    · rw [step_of_char hhead hroom, whole_append_of_char hhead, ih (room - bytes.length),
        Step.after_after, List.drop_drop]
      rfl
    · rw [step_of_noRoom hhead (by omega), List.drop_zero, Step.after_nil_zero]

/-- How a step can end. It stops for want of room with nothing done only in a room that is too small
for a character, and asks for more only if more may come. A fault is one of the large step as
well, whatever the source goes on with. -/
theorem step_ends (cs : Charset) (dir : Direction) (room : Nat) (atEnd : Bool) (t : List UInt8) :
    let s := cs.step dir room atEnd t
    s.consumed ≤ t.length ∧
      (s.stop = none ∧ s.consumed = t.length ∨
      s.stop = some .noRoom ∧ (dir.least ≤ room → 0 < s.consumed) ∨
      s.stop = some .needsMore ∧ atEnd = false ∨
      ∃ fault, s.stop = some (.fault fault) ∧
        ∀ u, (atEnd = true → u = []) → cs.whole dir (t ++ u) = s) := by
  induction t using source_induction cs dir generalizing room with
  | nil => simp [step_nil]
  | cut t ht hhead =>
    rw [step_of_cut ht hhead]
    cases atEnd with
    | false => exact ⟨Nat.zero_le _, .inr (.inr (.inl ⟨rfl, rfl⟩))⟩
    | true =>
      refine ⟨Nat.zero_le _, .inr (.inr (.inr ⟨_, rfl, fun u hu => ?_⟩))⟩
      rw [hu rfl, List.append_nil]
      exact step_of_cut ht hhead
  | bad t fault hhead =>
    rw [step_of_bad hhead]
    refine ⟨Nat.zero_le _, .inr (.inr (.inr ⟨_, rfl, fun u hu => ?_⟩))⟩
    exact step_of_bad ((head_append (by simp [hhead]) u).trans hhead)
  | char t bytes size hhead ih =>
    obtain ⟨hpos, hsize, hbytes⟩ := head_char_spec hhead
    by_cases hroom : bytes.length ≤ room
    · rw [step_of_char hhead hroom]
      obtain ⟨hle, hend⟩ := ih (room - bytes.length)
      rw [List.length_drop] at hle hend
      refine ⟨by dsimp only [Step.after]; omega, ?_⟩
      obtain ⟨hstop, hall⟩ | ⟨hstop, -⟩ | ⟨hstop, hmore⟩ | ⟨fault, hstop, hwhole⟩ := hend
      · refine .inl ⟨by simp [Step.after, hstop], ?_⟩
        dsimp only [Step.after]
        omega
      · refine .inr (.inl ⟨by simp [Step.after, hstop, Stop.shift], fun _ => ?_⟩)
        dsimp only [Step.after]
        omega
      · exact .inr (.inr (.inl ⟨by simp [Step.after, hstop, Stop.shift], hmore⟩))
      · refine .inr (.inr (.inr ⟨fault.shift size, by simp [Step.after, hstop, Stop.shift],
          fun u hu => ?_⟩))
        rw [whole_append_of_char hhead, hwhole u hu]
    · rw [step_of_noRoom hhead (by omega)]
      exact ⟨Nat.zero_le _, .inr (.inl ⟨rfl, fun hleast => by omega⟩)⟩

end Whole

/-! ### The caller -/

structure Feed where
  /-- The bytes that have come and are not consumed. -/
  pending : List UInt8
  /-- The chunks that are still to come. -/
  coming : List (List UInt8)
  /-- What is left of the destination in use. -/
  room : Nat
  written : List UInt8 := []
  consumed : Nat := 0

/-- The destinations. After each call there is a fresh one of some size, and the caller may take it
though the one in use is not full. -/
structure Supply where
  size : Nat → Nat
  renews : Nat → Bool

def Supply.room (d : Supply) (calls : Nat) (f : Feed) (s : Step) : Nat :=
  if s.stop = some .noRoom ∨ d.renews calls then d.size (calls + 1)
  else f.room - s.written.length

namespace Feed

def start (chunks : List (List UInt8)) (room : Nat) : Feed :=
  { pending := chunks.headD [], coming := chunks.tail, room }

/-- The end of the source is known with its last chunk. -/
def call (cs : Charset) (dir : Direction) (f : Feed) : Step :=
  cs.step dir f.room f.coming.isEmpty f.pending

def advance (f : Feed) (s : Step) (room : Nat) : Feed :=
  { f with
    pending := f.pending.drop s.consumed
    room
    written := f.written ++ s.written
    consumed := f.consumed + s.consumed }

def receive? (f : Feed) : Option Feed :=
  match f.coming with
  | [] => none
  | chunk :: coming => some { f with pending := f.pending ++ chunk, coming }

/-- The caller goes on after a call: with a fresh destination if there was no room, else with the
next chunk. A fault and the end of the source are the end. -/
def next? (f : Feed) (s : Step) (room : Nat) : Option Feed :=
  match s.stop with
  | some (.fault _) => none
  | some .noRoom => some (f.advance s room)
  | some .needsMore => (f.advance s room).receive?
  | none => (f.advance s room).receive?

/-- The last call and what was held before it, if it is reached with so much fuel. -/
def drive (cs : Charset) (dir : Direction) (d : Supply) :
    (fuel calls : Nat) → Feed → Option (Feed × Step)
  | 0, _, _ => none
  | fuel + 1, calls, f =>
    match f.next? (f.call cs dir) (d.room calls f (f.call cs dir)) with
    | none => some (f, f.call cs dir)
    | some g => drive cs dir d fuel (calls + 1) g

def rest (f : Feed) : List UInt8 := f.pending ++ f.coming.flatten

/-- The calls so far did a first part of the large step. -/
def Follows (cs : Charset) (dir : Direction) (input : List UInt8) (f : Feed) : Prop :=
  cs.whole dir input = (cs.whole dir f.rest).after f.written f.consumed

/-- A bound for the calls that are to come. A call may do nothing if it has only what is left of a
destination. -/
def measure (dir : Direction) (f : Feed) : Nat :=
  f.rest.length + 2 * f.coming.length + if f.room < dir.least then 1 else 0

section Calls

variable {cs : Charset} {dir : Direction} {input : List UInt8} {f g : Feed} {room : Nat}

theorem rest_start (chunks : List (List UInt8)) (room : Nat) :
    (start chunks room).rest = chunks.flatten := by
  cases chunks with
  | nil => rfl
  | cons chunk chunks => rfl

theorem of_receive? (h : f.receive? = some g) : g.rest = f.rest ∧
    g.coming.length + 1 = f.coming.length ∧ g.written = f.written ∧ g.consumed = f.consumed := by
  obtain ⟨pending, coming, room, written, consumed⟩ := f
  cases coming with
  | nil => cases h
  | cons chunk coming =>
    cases h
    refine ⟨?_, rfl, rfl, rfl⟩
    rw [rest, rest, List.flatten_cons, List.append_assoc]

theorem receive?_eq_none_iff : f.receive? = none ↔ f.coming = [] := by
  obtain ⟨pending, coming, room, written, consumed⟩ := f
  cases coming <;> simp [receive?]

theorem follows_advance (h : f.Follows cs dir input) (room : Nat) :
    (f.advance (f.call cs dir) room).Follows cs dir input := by
  rw [Follows, h, rest, whole_append_eq_after cs dir f.room f.coming.isEmpty, Step.after_after]
  rfl

theorem call_ends (cs : Charset) (dir : Direction) (f : Feed) :
    (f.call cs dir).consumed ≤ f.pending.length ∧
      ((f.call cs dir).stop = none ∧ (f.call cs dir).consumed = f.pending.length ∨
      (f.call cs dir).stop = some .noRoom ∧ (dir.least ≤ f.room → 0 < (f.call cs dir).consumed) ∨
      (f.call cs dir).stop = some .needsMore ∧ f.coming.isEmpty = false ∨
      ∃ fault, (f.call cs dir).stop = some (.fault fault) ∧
        ∀ u, (f.coming.isEmpty = true → u = []) →
          cs.whole dir (f.pending ++ u) = f.call cs dir) :=
  step_ends cs dir f.room f.coming.isEmpty f.pending

theorem length_rest_advance (cs : Charset) (dir : Direction) (f : Feed) (room : Nat) :
    (f.advance (f.call cs dir) room).rest.length + (f.call cs dir).consumed = f.rest.length := by
  have hle := (call_ends cs dir f).1
  simp only [rest, advance, List.length_append, List.length_drop]
  omega

/-- One turn: what the calls did stays a first part of the large step, and fewer are to come. -/
theorem of_next?_eq_some (h : f.Follows cs dir input)
    (hnext : f.next? (f.call cs dir) room = some g)
    (hroom : (f.call cs dir).stop = some .noRoom → dir.least ≤ room) :
    g.Follows cs dir input ∧ g.measure dir < f.measure dir := by
  have hfollows := follows_advance h room
  have hrest := length_rest_advance cs dir f room
  have hcoming : (f.advance (f.call cs dir) room).coming = f.coming := rfl
  have hreceive (hg : (f.advance (f.call cs dir) room).receive? = some g) :
      g.Follows cs dir input ∧ g.measure dir < f.measure dir := by
    obtain ⟨hsame, hfewer, hwritten, hconsumed⟩ := of_receive? hg
    constructor
    · rw [Follows, hsame, hwritten, hconsumed]
      exact hfollows
    · rw [measure, measure, hsame]
      rw [hcoming] at hfewer
      split_ifs <;> omega
  obtain ⟨-, ⟨hstop, -⟩ | ⟨hstop, hpos⟩ | ⟨hstop, -⟩ | ⟨fault, hstop, -⟩⟩ := call_ends cs dir f
  · exact hreceive (by simpa only [next?, hstop] using hnext)
  · obtain rfl : f.advance (f.call cs dir) room = g := by
      simpa only [next?, hstop, Option.some.injEq] using hnext
    refine ⟨hfollows, ?_⟩
    have hfresh : ¬ (f.advance (f.call cs dir) room).room < dir.least :=
      Nat.not_lt.mpr (hroom hstop)
    rw [measure, measure, hcoming, if_neg hfresh]
    split_ifs <;> omega
  · exact hreceive (by simpa only [next?, hstop] using hnext)
  · simp [next?, hstop] at hnext

/-- The last turn: the large step is what the last call did after the others. -/
theorem of_next?_eq_none (h : f.Follows cs dir input)
    (hnext : f.next? (f.call cs dir) room = none) :
    cs.whole dir input = (f.call cs dir).after f.written f.consumed ∧
      ((f.call cs dir).stop = none ∨ ∃ fault, (f.call cs dir).stop = some (.fault fault)) := by
  have hcoming (hg : (f.advance (f.call cs dir) room).receive? = none) : f.coming = [] :=
    (receive?_eq_none_iff (f := f.advance (f.call cs dir) room)).mp hg
  obtain ⟨-, ⟨hstop, hall⟩ | ⟨hstop, -⟩ | ⟨hstop, hmore⟩ | ⟨fault, hstop, hwhole⟩⟩ :=
    call_ends cs dir f
  · refine ⟨?_, .inl hstop⟩
    have hlast := hcoming (by simpa only [next?, hstop] using hnext)
    have hrest : (f.advance (f.call cs dir) room).rest = [] := by
      simp [rest, advance, hall, hlast]
    rw [follows_advance h room, hrest, whole, step_nil]
    simp [Step.after, advance, hstop]
  · simp [next?, hstop] at hnext
  · have hlast := hcoming (by simpa only [next?, hstop] using hnext)
    rw [hlast] at hmore
    cases hmore
  · refine ⟨?_, .inr ⟨fault, hstop⟩⟩
    have hnothing : f.coming.isEmpty = true → f.coming.flatten = [] := by
      intro hempty
      rw [List.isEmpty_iff.mp hempty]
      rfl
    rw [h, rest, hwhole f.coming.flatten hnothing]

end Calls

section Run

variable {cs : Charset} {dir : Direction} {input : List UInt8} {d : Supply}

theorem least_le_room (hsize : ∀ i, dir.least ≤ d.size i) {calls : Nat} {f : Feed} {s : Step}
    (hstop : s.stop = some .noRoom) : dir.least ≤ d.room calls f s := by
  rw [Supply.room, if_pos (.inl hstop)]
  exact hsize _

/-- A whole run. -/
theorem exists_drive_eq (hsize : ∀ i, dir.least ≤ d.size i) {fuel calls : Nat} {f : Feed}
    (h : f.Follows cs dir input) (hfuel : f.measure dir < fuel) :
    ∃ g, drive cs dir d fuel calls f = some (g, g.call cs dir) ∧
      cs.whole dir input = (g.call cs dir).after g.written g.consumed ∧
      ((g.call cs dir).stop = none ∨ ∃ fault, (g.call cs dir).stop = some (.fault fault)) := by
  induction fuel generalizing calls f with
  | zero => exact absurd hfuel (Nat.not_lt_zero _)
  | succ fuel ih =>
    cases hnext : f.next? (f.call cs dir) (d.room calls f (f.call cs dir)) with
    | none =>
      refine ⟨f, ?_, of_next?_eq_none h hnext⟩
      rw [drive, hnext]
    | some g =>
      obtain ⟨hfollows, hless⟩ := of_next?_eq_some h hnext (least_le_room hsize)
      rw [drive, hnext]
      exact ih hfollows (by omega)

end Run

end Feed

/-- However a source is cut into chunks and whatever the sizes of the destinations, the caller is
done after a limited number of calls. It has then written and consumed the same as one large step
on the whole source. Both took all of it, or both met the same fault, the caller's being seen from
where the last call began. -/
theorem chunked_eq_whole (cs : Charset) (dir : Direction) (chunks : List (List UInt8)) (d : Supply)
    (hsize : ∀ i, dir.least ≤ d.size i) (room fuel : Nat)
    (hroom : dir.least * chunks.flatten.length ≤ room)
    (hfuel : chunks.flatten.length + 2 * chunks.length < fuel) :
    ∃ f s, Feed.drive cs dir d fuel 0 (.start chunks (d.size 0)) = some (f, s) ∧
      f.written ++ s.written = (cs.step dir room true chunks.flatten).written ∧
      f.consumed + s.consumed = (cs.step dir room true chunks.flatten).consumed ∧
      (s.stop = none ∧ (cs.step dir room true chunks.flatten).stop = none ∨
        ∃ fault, s.stop = some (.fault fault) ∧
          (cs.step dir room true chunks.flatten).stop =
            some (.fault (fault.shift f.consumed))) := by
  have hfollows : (Feed.start chunks (d.size 0)).Follows cs dir chunks.flatten := by
    rw [Feed.Follows, Feed.rest_start]
    exact (Step.after_nil_zero _).symm
  have hmeasure : (Feed.start chunks (d.size 0)).measure dir < fuel := by
    have hcoming : (Feed.start chunks (d.size 0)).coming.length ≤ chunks.length := by
      rw [Feed.start, List.length_tail]
      exact Nat.sub_le _ _
    have hfresh : ¬ (Feed.start chunks (d.size 0)).room < dir.least := Nat.not_lt.mpr (hsize 0)
    rw [Feed.measure, Feed.rest_start, if_neg hfresh]
    omega
  obtain ⟨f, hdrive, hwhole, hstop⟩ := Feed.exists_drive_eq hsize hfollows hmeasure
  rw [step_eq_whole hroom, hwhole]
  refine ⟨f, f.call cs dir, hdrive, rfl, rfl, ?_⟩
  rw [Step.after]
  obtain hstop | ⟨fault, hstop⟩ := hstop
  · exact .inl ⟨hstop, by rw [hstop]; rfl⟩
  · exact .inr ⟨fault, hstop, by rw [hstop]; rfl⟩

/-- Chunks that end inside characters, one of them empty, and destinations of one byte. The last
character is not complete when it meets a letter. -/
theorem chunked_eq_whole_incomplete :
    let chunks : List (List UInt8) := [[0xe2, 0x86], [0x91, 0x62, 0xc2], [], [0xa3, 0xe2], [0x41]]
    let d : Supply := ⟨fun _ => 1, fun _ => false⟩
    petscii.step .encoding 10 true chunks.flatten =
        ⟨[0x5e, 0x42, 0x5c], 6, some (.fault (.invalidUtf8 6))⟩ ∧
      ∃ f s, Feed.drive petscii .encoding d 19 0 (.start chunks 1) = some (f, s) ∧
        f.written ++ s.written = [0x5e, 0x42, 0x5c] ∧ ∃ fault, s.stop = some (.fault fault) := by
  intro chunks d
  have hwhole : petscii.step .encoding 10 true chunks.flatten =
      ⟨[0x5e, 0x42, 0x5c], 6, some (.fault (.invalidUtf8 6))⟩ := by decide +kernel
  refine ⟨hwhole, ?_⟩
  obtain ⟨f, s, hdrive, hwritten, -, ⟨-, hstop⟩ | ⟨fault, hstop, -⟩⟩ :=
    chunked_eq_whole petscii .encoding chunks d (fun _ => le_rfl) 10 19 (by decide) (by decide)
  · rw [hwhole] at hstop
    cases hstop
  · rw [hwhole] at hwritten
    exact ⟨f, s, hdrive, hwritten, fault, hstop⟩

end Stack6502.Charset
