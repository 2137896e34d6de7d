import Stack6502.Asm.Line
import Stack6502.Lower.Session
import Stack6502.Program.Instr
import Stack6502.Text.Blank

/-!
# Patterns

A rule matches a fixed sequence of opcodes, or an alternative of the same length. An idiom matches
by the operands of a number of instructions. Either may still decline when it is asked for code.
-/
namespace Stack6502

/-- A fault of a catalog or a pattern that selection ran into. -/
inductive Defect
  | negativeWindow
  | strayOpcode (n : Int)
  | noPredicate (idiom : Text)
  | noLowering (pattern : Text)
  /-- An integer operand was read that is not there. -/
  | absentOperand (op : Coded Opcode)
  /-- An instruction was read beyond those handed over. -/
  | shortWindow
  deriving DecidableEq, Repr

/-- What is made from operands read: a pattern may decline, and reading may go wrong. -/
abbrev Reading := OptionT (Except Defect)

namespace Reading

def fail {α : Type} (d : Defect) : Reading α := OptionT.mk (.error d)

def ofOption {α : Type} (o : Option α) : Reading α := OptionT.mk (.ok o)

end Reading

/-- Reads the integer operand. -/
def Instr.integer (x : Instr) : Reading Int64 :=
  match x.int? with
  | some v => pure v
  | none => .fail (.absentOperand x.op)

/-- Tells whether the instructions handed over are an instance of an idiom. -/
abbrev Predicate := List Instr → Except Defect Bool

/-- Code for the instructions matched, if there is any. New float literals join the pool. -/
abbrev Lowering := List Instr → FloatPool → Except Defect (Option Code) × FloatPool

/-- Code without float literals from operands read. -/
def Lowering.reading (f : List Instr → Reading Code) : Lowering := fun w pool => ((f w).run, pool)

/-- Code without float literals. -/
def Lowering.plain (f : List Instr → Option Code) : Lowering := fun w pool => (.ok (f w), pool)

structure Rule where
  name : Text
  seq : List Opcode
  /-- Empty for none. -/
  alt : List Opcode
  /-- A rule without a lowering is a defect that shows once the rule matches. -/
  lowering : Option Lowering

structure Idiom where
  name : Text
  span : Nat
  predicate : Option Predicate
  lowering : Option Lowering

/-- The opcodes at the start of a window. -/
def opcodesMatch : List Opcode → List Instr → Bool
  | [], _ => true
  | _ :: _, [] => false
  | op :: ops, x :: w => x.is op && opcodesMatch ops w

namespace Rule

def size (r : Rule) : Nat := r.seq.length

/-- There is something to match, and an alternative is of the same length. -/
def isWellFormed (r : Rule) : Bool :=
  !r.seq.isEmpty && (r.alt.isEmpty || r.alt.length == r.seq.length)

def isMatch (r : Rule) (w : List Instr) : Bool :=
  opcodesMatch r.seq w || (!r.alt.isEmpty && opcodesMatch r.alt w)

/-- The rule can match only where one of these opcodes stands first. -/
def startsAt (r : Rule) (op : Opcode) : Bool :=
  r.seq.head? == some op || r.alt.head? == some op

end Rule

/-- Code for `size` instructions. Raw code is emitted as it is. -/
structure Fragment where
  name : Text
  code : Code
  size : Nat
  isRaw : Bool
  deriving DecidableEq, Repr

namespace Fragment

/-- Pieces of a text are divided by newlines, or by bars if it has none. A piece that starts with a
space is an instruction and gets a tab; other pieces stay at the left. -/
def pieceLines (t : Text) : Text :=
  let sep := if t.contains Text.newline then Text.newline else Text.byte '|'
  (t.splitOn sep).flatMap fun piece =>
    let body := piece.trim
    if body.isEmpty then []
    else (if piece.head? == some Text.space then [Text.tab] else []) ++ body ++ [Text.newline]

def output (f : Fragment) : Text :=
  let t := f.code.text
  if f.isRaw then (if t.isEmpty then [] else t ++ [Text.newline]) else pieceLines t

end Fragment

end Stack6502
