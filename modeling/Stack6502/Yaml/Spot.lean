import Stack6502.Text.Utf8

/-!
# Characters with their places

The text of a document as characters that know where they stand. A carriage return is a newline,
alone or with the newline after it.
-/
namespace Stack6502.Yaml

/-- A character, its line and column counted from zero, and the characters before it. -/
structure Spot where
  char : Char
  line : Nat
  column : Nat
  index : Nat
  deriving DecidableEq, Repr

def isBlank (c : Char) : Bool := c == ' ' || c == '\t'

def isBreak (c : Char) : Bool := c == '\n' || c == '\u0085' || c == '\u2028' || c == '\u2029'

/-- Line ends are read as a newline, except the two Unicode separators, which are kept. -/
def unifyBreak (c : Char) : Char := if c == '\u0085' then '\n' else c

/-- Documents hold no control characters. -/
def isAllowed (c : Char) : Bool :=
  let n := c.toNat
  n == 0x09 || n == 0x0a || n == 0x0d || (0x20 ≤ n && n ≤ 0x7e) || n == 0x85
    || (0xa0 ≤ n && n ≤ 0xfffd) || 0x10000 ≤ n

def place : (line column index : Nat) → List Char → List Spot
  | _, _, _, [] => []
  | line, column, index, '\r' :: '\n' :: cs =>
    ⟨'\n', line, column, index⟩ :: place (line + 1) 0 (index + 2) cs
  | line, column, index, c :: cs =>
    let c := if c == '\r' then '\n' else c
    ⟨c, line, column, index⟩ ::
      if isBreak c then place (line + 1) 0 (index + 1) cs
      else place line (column + 1) (index + 1) cs

/-- The place after the last character. -/
def endSpot (spots : List Spot) : Spot :=
  match spots.getLast? with
  | none => ⟨'\x00', 0, 0, 0⟩
  | some p =>
    if isBreak p.char then ⟨'\x00', p.line + 1, 0, p.index + 1⟩
    else ⟨'\x00', p.line, p.column + 1, p.index + 1⟩

def byteOrderMark : Char := '\ufeff'

/-- The characters of a document, if it is one. A byte order mark in front does not count. -/
def spots? (t : Text) : Option (List Spot) :=
  let cs := t.chars
  if t.isUtf8 && cs.all isAllowed then
    some (place 0 0 0 (if cs.head? == some byteOrderMark then cs.drop 1 else cs))
  else none

/-- Nothing, a blank or a line end comes next. -/
def atGap : List Spot → Bool
  | [] => true
  | s :: _ => isBlank s.char || isBreak s.char

/-- Nothing or a line end comes next. -/
def atLineEnd : List Spot → Bool
  | [] => true
  | s :: _ => isBreak s.char

/-- Three dashes or dots on their own at the left bound documents. -/
def atBoundary (mark : Char) : List Spot → Bool
  | a :: b :: c :: rest =>
    a.column == 0 && a.char == mark && b.char == mark && c.char == mark && atGap rest
  | _ => false

def atAnyBoundary (spots : List Spot) : Bool := atBoundary '-' spots || atBoundary '.' spots

end Stack6502.Yaml
