import Stack6502.BitSet
import Stack6502.Text.Blank

/-!
# Cancelling index steps

One pass over assembly text removes neighbouring lines that step an index register up and down
again. Pairs do not overlap, and only bare unlabelled instructions take part. The numbers of the
lines to remove are collected first.
-/
namespace Stack6502

inductive IndexStep
  | inx | dex | iny | dey
  deriving DecidableEq, Repr

namespace IndexStep

def ofMnemonic? (t : Text) : Option IndexStep :=
  if t = "inx" then some .inx
  else if t = "dex" then some .dex
  else if t = "iny" then some .iny
  else if t = "dey" then some .dey
  else none

def opposite : IndexStep → IndexStep
  | .inx => .dex
  | .dex => .inx
  | .iny => .dey
  | .dey => .iny

/-- The step that a line takes if it is indented and holds nothing else but a comment. -/
def ofLine? (line : Text) : Option IndexStep :=
  match line with
  | [] => none
  | b :: _ =>
    if b == Text.tab || b == Text.space then
      ofMnemonic? (line.cut (Text.byte ';')).1.trim
    else none

end IndexStep

def cancels (first second : Text) : Bool :=
  match IndexStep.ofLine? first, IndexStep.ofLine? second with
  | some a, some b => a.opposite == b
  | _, _ => false

/-- Marks the lines that cancel each other. The lines at hand are numbered from `i` on. -/
def markPairs : (i : Nat) → (lines : List Text) → (marks : BitSet) → BitSet
  | i, first :: second :: rest, marks =>
    if cancels first second then markPairs (i + 2) rest ((marks.insert i).insert (i + 1))
    else markPairs (i + 1) (second :: rest) marks
  | _, _, marks => marks

def peephole (t : Text) : Text :=
  let marks := markPairs 0 t.lines .empty
  if marks.size = 0 then t
  else ((t.lines.zipIdx.filter (!marks.contains ·.2)).map (·.1)).flatten

end Stack6502
