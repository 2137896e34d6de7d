import Stack6502.Number.FloatLiteral
import Stack6502.Number.FloatText
import Stack6502.Text.Quoted

/-!
# Values

The operands of instructions and the initial values of declarations: 64-bit integers and doubles.
-/
namespace Stack6502

inductive Value
  | int (v : Int64)
  | float (x : Double)
  deriving DecidableEq, Repr

namespace Value

def isFloat : Value → Bool
  | .int _ => false
  | .float _ => true

def int? : Value → Option Int64
  | .int v => some v
  | .float _ => none

/-- Integers are rounded to the nearest double. -/
def toDouble : Value → Double
  | .int v => .ofInt v.toInt
  | .float x => x

/-- Equal and of the same kind; floats compare as numbers. -/
def same : Value → Value → Bool
  | .int v, .int w => v == w
  | .float x, .float y => x.same y
  | _, _ => false

def text : Value → Text
  | .int v => Text.ofInt v.toInt
  | .float x => x.text .value

/-- A base mark after the optional minus: `$` for sixteen, `%` for two. -/
def splitMark (t : Text) : Option Nat × Text :=
  match t with
  | b :: rest =>
    if b == Text.byte '$' then (some 16, rest)
    else if b == Text.byte '%' then (some 2, rest)
    else (none, t)
  | [] => (none, t)

/-- An integer literal after an optional minus and base mark, else a float literal. -/
def parse? (t : Text) : Option Value :=
  let negative := t.head? == some (Text.byte '-')
  let (base, digits) := splitMark (if negative then t.drop 1 else t)
  match IntLiteral.readInt base digits with
  | .ok v => some (.int (if negative then -v else v))
  | .error _ =>
    match base with
    | some _ => none
    | none => (FloatLiteral.read t).map .float

def badNumber (t : Text) : Text := "bad number: " ++ t.quoted

end Value

/-- Hexadecimal text of an integer: two digits for a byte, four for a word, more as needed. -/
def hex (v : Int64) : Text :=
  let n := v.toInt.natAbs
  let digits := Text.ofDigits 16 n
  let width := if n ≤ 0xff then 2 else 4
  (if v < 0 then "-$" else "$") ++ Text.padLeft width (Text.byte '0') digits

/-- An integer in at least four hexadecimal digits, a minus taking the place of one. -/
def hex4 (v : Int64) : Text :=
  let digits := Text.ofDigits 16 v.toInt.natAbs
  if v < 0 then Text.byte '-' :: Text.padLeft 3 (Text.byte '0') digits
  else Text.padLeft 4 (Text.byte '0') digits

end Stack6502
