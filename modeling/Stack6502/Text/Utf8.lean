import Stack6502.Text.Basic

/-!
# Characters of a byte text

`pieces` cuts a text into UTF-8 characters and stray bytes that belong to none. Nothing is lost:
the bytes of the pieces are the text again.
-/
namespace Stack6502.Text

/-- What may follow a first byte: how many more bytes, and the range of the next one. -/
structure Lead where
  more : Nat
  low : UInt8 := 0x80
  high : UInt8 := 0xbf
  deriving DecidableEq, Repr

/-- The first bytes of characters longer than one byte. Ranges leave out overlong forms,
surrogates and numbers above `10ffff`. -/
def lead (b : UInt8) : Option Lead :=
  if b < 0xc2 then none
  else if b < 0xe0 then some { more := 1 }
  else if b = 0xe0 then some { more := 2, low := 0xa0 }
  else if b = 0xed then some { more := 2, high := 0x9f }
  else if b < 0xf0 then some { more := 2 }
  else if b = 0xf0 then some { more := 3, low := 0x90 }
  else if b < 0xf4 then some { more := 3 }
  else if b = 0xf4 then some { more := 3, high := 0x8f }
  else none

def isTail (b : UInt8) : Bool := 0x80 ≤ b && b ≤ 0xbf

/-- The six low bits of a byte that continues a character. -/
def tailBits (b : UInt8) : Nat := b.toNat % 64

/-- The character at the start of a text and the number of its bytes. -/
def firstChar? : Text → Option (Char × Nat)
  | [] => none
  | b :: t =>
    if b < 0x80 then some (Char.ofNat b.toNat, 1)
    else match lead b, t with
      | some ⟨1, lo, hi⟩, c :: _ =>
        if lo ≤ c && c ≤ hi then some (Char.ofNat (b.toNat % 32 * 64 + tailBits c), 2) else none
      | some ⟨2, lo, hi⟩, c :: d :: _ =>
        if lo ≤ c && c ≤ hi && isTail d then
          some (Char.ofNat ((b.toNat % 16 * 64 + tailBits c) * 64 + tailBits d), 3)
        else none
      | some ⟨3, lo, hi⟩, c :: d :: e :: _ =>
        if lo ≤ c && c ≤ hi && isTail d && isTail e then
          let high := (b.toNat % 8 * 64 + tailBits c) * 64 + tailBits d
          some (Char.ofNat (high * 64 + tailBits e), 4)
        else none
      | _, _ => none

/-- The text ends inside a character that more bytes could complete. -/
def endsInsideChar : Text → Bool
  | [] => true
  | b :: t =>
    match lead b, t with
    | some _, [] => true
    | some ⟨2, lo, hi⟩, [c] => lo ≤ c && c ≤ hi
    | some ⟨3, lo, hi⟩, [c] => lo ≤ c && c ≤ hi
    | some ⟨3, lo, hi⟩, [c, d] => lo ≤ c && c ≤ hi && isTail d
    | _, _ => false

inductive Piece
  | char (c : Char)
  | stray (b : UInt8)
  deriving DecidableEq, Repr

def Piece.bytes : Piece → Text
  | .char c => String.utf8EncodeChar c
  | .stray b => [b]

/-- `skip` bytes belong to a character already taken. -/
def piecesFrom : (skip : Nat) → Text → List Piece
  | _, [] => []
  | skip + 1, _ :: t => piecesFrom skip t
  | 0, b :: t =>
    match firstChar? (b :: t) with
    | some (c, n) => .char c :: piecesFrom (n - 1) t
    | none => .stray b :: piecesFrom 0 t

def pieces (t : Text) : List Piece := piecesFrom 0 t

def ofPieces (ps : List Piece) : Text := ps.flatMap Piece.bytes

def ofChar (c : Char) : Text := String.utf8EncodeChar c

def isUtf8 (t : Text) : Bool :=
  (pieces t).all fun
    | .char _ => true
    | .stray _ => false

/-- U+FFFD, which stands for bytes that are no character. -/
def replacement : Char := Char.ofNat 0xfffd

/-- The characters of a text, each stray byte read as U+FFFD. -/
def chars (t : Text) : List Char :=
  (pieces t).map fun
    | .char c => c
    | .stray _ => replacement

end Stack6502.Text
