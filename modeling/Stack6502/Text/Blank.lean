import Stack6502.Text.Utf8

/-!
# White space

The characters of the Unicode property `White_Space`, and the two cuts made at them.
-/
namespace Stack6502.Text

def isBlank (c : Char) : Bool :=
  let n := c.toNat
  (0x09 ≤ n && n ≤ 0x0d) || n == 0x20 || n == 0x85 || n == 0xa0 || n == 0x1680
    || (0x2000 ≤ n && n ≤ 0x200a) || n == 0x2028 || n == 0x2029 || n == 0x202f || n == 0x205f
    || n == 0x3000

def Piece.isBlank : Piece → Bool
  | .char c => Text.isBlank c
  | .stray _ => false

/-- The text without the white space at both ends. -/
def trim (t : Text) : Text :=
  let ps := (pieces t).dropWhile Piece.isBlank
  ofPieces (ps.reverse.dropWhile Piece.isBlank).reverse

/-- The runs of a list between elements that satisfy `sep`, empty runs left out. -/
def runs {α : Type} (sep : α → Bool) : List α → List (List α)
  | [] => []
  | a :: as =>
    if sep a then runs sep as
    else match as with
      | [] => [[a]]
      | b :: _ =>
        if sep b then [a] :: runs sep as
        else match runs sep as with
          | [] => [[a]]
          | run :: rest => (a :: run) :: rest

/-- The words of a text: its runs without white space. -/
def words (t : Text) : List Text := (runs Piece.isBlank (pieces t)).map ofPieces

/-- Leading spaces and tabs only. -/
def dropIndent (t : Text) : Text := t.dropWhile fun b => b == space || b == tab

end Stack6502.Text
