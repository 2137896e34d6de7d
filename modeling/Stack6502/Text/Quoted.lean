import Stack6502.Text.Printable
import Stack6502.Text.Utf8

/-!
# Quoted texts

A quoted text shows printable characters as they are and all else by escapes: a letter for the
usual controls, two hexadecimal digits for other ASCII controls and for stray bytes, four or
eight for other characters.
-/
namespace Stack6502.Text

/-- The escape letter of a control character. -/
def controlLetter? (c : Char) : Option Char :=
  match c.toNat with
  | 0x07 => some 'a'
  | 0x08 => some 'b'
  | 0x09 => some 't'
  | 0x0a => some 'n'
  | 0x0b => some 'v'
  | 0x0c => some 'f'
  | 0x0d => some 'r'
  | _ => none

/-- A backslash, the letter `kind` and `n` in `width` hexadecimal digits. -/
def hexEscape (kind : Char) (width n : Nat) : Text :=
  byte '\\' :: byte kind :: padLeft width (byte '0') (ofDigits 16 n)

def quoteChar (mark c : Char) : Text :=
  if c = mark || c = '\\' then [byte '\\', byte c]
  else if isPrintable c then ofChar c
  else match controlLetter? c with
    | some letter => [byte '\\', byte letter]
    | none =>
      let n := c.toNat
      if n < 0x20 || n == 0x7f then hexEscape 'x' 2 n
      else if n < 0x10000 then hexEscape 'u' 4 n
      else hexEscape 'U' 8 n

def quotePiece (mark : Char) : Piece → Text
  | .char c => quoteChar mark c
  | .stray b => hexEscape 'x' 2 b.toNat

/-- The text between double quotes. -/
def quoted (t : Text) : Text :=
  byte '"' :: (pieces t).flatMap (quotePiece '"') ++ [byte '"']

def apostrophe : Char := Char.ofNat 0x27

/-- One character between apostrophes. -/
def quotedChar (c : Char) : Text :=
  byte apostrophe :: quoteChar apostrophe c ++ [byte apostrophe]

end Stack6502.Text
