import Stack6502.Text.Case

/-!
# Tables

Tables with a title, a header, rows and a footer, drawn with dashes and bars. A column of numbers
is set to the right, its header and footer too. A cell may have several lines.
-/
namespace Stack6502

inductive TableCell
  | text (t : Text)
  | number (n : Nat)
  deriving DecidableEq, Repr

structure Table where
  title : Text
  header : List Text
  rows : List (List TableCell)
  footer : List Text
  deriving DecidableEq, Repr

namespace Table

def isNumber : TableCell → Bool
  | .number _ => true
  | .text _ => false

def cellText : TableCell → Text
  | .text t => t
  | .number n => Text.ofNat n

def cellLines (t : Text) : List Text := t.splitOn Text.newline

def width (t : Text) : Nat := ((cellLines t).map (·.chars.length)).foldl max 0

def headerTexts (t : Table) : List Text := t.header.map Text.upper

def footerTexts (t : Table) : List Text := t.footer.map Text.upper

/-- The width of column `k` and whether it is set to the right. -/
structure Column where
  width : Nat
  isRight : Bool
  deriving DecidableEq, Repr

def column (t : Table) (k : Nat) : Column :=
  let rows := t.rows.map fun r => r.getD k (.text [])
  let texts := rows.map cellText ++ [t.headerTexts.getD k [], t.footerTexts.getD k []]
  ⟨(texts.map width).foldl max 0, rows.all isNumber⟩

def columns (t : Table) : List Column := (List.range t.header.length).map t.column

def dashes (n : Nat) : Text := List.replicate n (Text.byte '-')

def border (columns : List Column) : Text :=
  "+" ++ Text.join "+" (columns.map fun c => dashes (c.width + 2)) ++ "+\n"

def pad (c : Column) (t : Text) : Text :=
  let fill := List.replicate (c.width - t.chars.length) Text.space
  if c.isRight then fill ++ t else t ++ fill

/-- One line of a row: the lines numbered `n` of its cells. -/
def rowLine (columns : List Column) (cells : List Text) (n : Nat) : Text :=
  let parts := columns.zip cells |>.map fun (c, t) => pad c ((cellLines t).getD n [])
  "| " ++ Text.join " | " parts ++ " |\n"

def row (columns : List Column) (cells : List Text) : Text :=
  let height := (cells.map fun t => (cellLines t).length).foldl max 1
  (List.range height).flatMap (rowLine columns cells)

/-- The title spans all columns. -/
def titleLines (columns : List Column) (title : Text) : Text :=
  let inner := (columns.map (·.width + 3)).foldr (· + ·) 0 - 1
  "+" ++ dashes inner ++ "+\n" ++ row [⟨inner - 2, false⟩] [title]

def render (t : Table) : Text :=
  let columns := t.columns
  titleLines columns t.title ++ border columns ++ row columns t.headerTexts ++ border columns
    ++ t.rows.flatMap (fun r => row columns (r.map cellText)) ++ border columns
    ++ row columns t.footerTexts ++ border columns

end Table

end Stack6502
