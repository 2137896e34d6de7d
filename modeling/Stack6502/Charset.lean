import Stack6502.Text.Quoted

/-!
# Character sets

Two one-byte sets of the Commodore machines: PETSCII in its lower and upper case form, and the
screen codes of the same characters. `encode` and `decode` work on whole texts, `encodeStep` and
`decodeStep` on a part of one, with a limited room for the result.
-/
namespace Stack6502

inductive Charset
  | petscii
  | screencodes
  deriving DecidableEq, Repr

inductive CharsetFault
  | invalidUtf8 (position : Nat)
  | unencodable (c : Char)
  | undecodable (b : UInt8)
  deriving DecidableEq, Repr

namespace Charset

def name : Charset → String
  | .petscii => "petscii"
  | .screencodes => "screencodes"

/-- `count` characters from `first` on, coded in the same order from `code` on. -/
def run (code : UInt8) (first : Char) (count : Nat) : List (UInt8 × Char) :=
  (List.range count).map fun i => (code + UInt8.ofNat i, Char.ofNat (first.toNat + i))

/-- The codes of a set with their characters, each code and each character once. -/
def entries : Charset → List (UInt8 × Char)
  | .petscii =>
    [(0x0d, '\n')] ++ run 0x20 ' ' 32 ++ [(0x40, '@')] ++ run 0x41 'a' 26
      ++ [(0x5b, '['), (0x5c, '£'), (0x5d, ']'), (0x5e, '↑'), (0x5f, '←')] ++ run 0xc1 'A' 26
  | .screencodes =>
    [(0x00, '@')] ++ run 0x01 'a' 26
      ++ [(0x1b, '['), (0x1c, '£'), (0x1d, ']'), (0x1e, '↑'), (0x1f, '←')] ++ run 0x20 ' ' 32
      ++ run 0x41 'A' 26

def encodeChar? (cs : Charset) (c : Char) : Option UInt8 :=
  (cs.entries.find? (·.2 == c)).map (·.1)

def decodeByte? (cs : Charset) (b : UInt8) : Option Char :=
  (cs.entries.find? (·.1 == b)).map (·.2)

def faultMessage (cs : Charset) : CharsetFault → Text
  | .invalidUtf8 position => cs.name ++ ": invalid utf8 at " ++ Text.ofNat position
  | .unencodable c => cs.name ++ ": unencodable character " ++ Text.quotedChar c
  | .undecodable b =>
    cs.name ++ ": undecodable byte $" ++ Text.padLeft 2 (Text.byte '0') (Text.ofDigits 16 b.toNat)

/-- The codes of the characters of a text that starts at `position`. -/
def encodeFrom (cs : Charset) :
    (position : Nat) → List Text.Piece → Except CharsetFault (List UInt8)
  | _, [] => .ok []
  | position, .stray _ :: _ => .error (.invalidUtf8 position)
  | position, .char c :: ps =>
    match cs.encodeChar? c with
    | none => .error (.unencodable c)
    | some b => do
      let rest ← cs.encodeFrom (position + (Text.ofChar c).length) ps
      return b :: rest

def encode (cs : Charset) (t : Text) : Except CharsetFault (List UInt8) :=
  cs.encodeFrom 0 t.pieces

def decode (cs : Charset) : List UInt8 → Except CharsetFault Text
  | [] => .ok []
  | b :: bs =>
    match cs.decodeByte? b with
    | none => .error (.undecodable b)
    | some c => do
      let rest ← cs.decode bs
      return Text.ofChar c ++ rest

/-- Why a step stopped before the end of its input. -/
inductive Stop
  | noRoom
  /-- The input ends inside a character. -/
  | needsMore
  | fault (f : CharsetFault)
  deriving DecidableEq, Repr

structure Step where
  written : List UInt8
  consumed : Nat
  stop : Option Stop
  deriving DecidableEq, Repr

def Step.write (bytes : List UInt8) (s : Step) : Step := { s with written := bytes ++ s.written }

/-- The first `position` bytes are consumed, and `skip` bytes belong to a character already
written. -/
def encodeStepFrom (cs : Charset) (atEnd : Bool) :
    (position skip room : Nat) → Text → Step
  | position, _, _, [] => ⟨[], position, none⟩
  | position, skip + 1, room, _ :: t => cs.encodeStepFrom atEnd (position + 1) skip room t
  | position, 0, room, b :: t =>
    match Text.firstChar? (b :: t) with
    | none =>
      if !atEnd && Text.endsInsideChar (b :: t) then ⟨[], position, some .needsMore⟩
      else ⟨[], position, some (.fault (.invalidUtf8 position))⟩
    | some (c, size) =>
      match cs.encodeChar? c, room with
      | none, _ => ⟨[], position, some (.fault (.unencodable c))⟩
      | some _, 0 => ⟨[], position, some .noRoom⟩
      | some code, room + 1 =>
        (cs.encodeStepFrom atEnd (position + 1) (size - 1) room t).write [code]

def encodeStep (cs : Charset) (room : Nat) (atEnd : Bool) (t : Text) : Step :=
  cs.encodeStepFrom atEnd 0 0 room t

def decodeStepFrom (cs : Charset) : (position room : Nat) → List UInt8 → Step
  | position, _, [] => ⟨[], position, none⟩
  | position, room, b :: bs =>
    match cs.decodeByte? b with
    | none => ⟨[], position, some (.fault (.undecodable b))⟩
    | some c =>
      let bytes := Text.ofChar c
      if room < bytes.length then ⟨[], position, some .noRoom⟩
      else (cs.decodeStepFrom (position + 1) (room - bytes.length) bs).write bytes

def decodeStep (cs : Charset) (room : Nat) (bs : List UInt8) : Step :=
  cs.decodeStepFrom 0 room bs

end Charset

end Stack6502
