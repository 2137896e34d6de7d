import Stack6502.Number.FloatLiteral
import Stack6502.Yaml.Node

/-!
# Kinds of scalars

A plain scalar may be a number, a truth value or null by its text. All other scalars are texts.
-/
namespace Stack6502.Yaml

inductive Kind
  | null
  | bool (b : Bool)
  /-- Integers reach from the least signed to the largest unsigned one of 64 bits. -/
  | int (n : Int)
  | float (x : Double)
  | text
  deriving DecidableEq, Repr

namespace Kind

def words : List (String × Kind) :=
  [("", .null), ("~", .null), ("null", .null), ("Null", .null), ("NULL", .null),
   ("true", .bool true), ("True", .bool true), ("TRUE", .bool true),
   ("false", .bool false), ("False", .bool false), ("FALSE", .bool false),
   (".nan", .float .nan), (".NaN", .float .nan), (".NAN", .float .nan),
   (".inf", .float (.infinity false)), (".Inf", .float (.infinity false)),
   (".INF", .float (.infinity false)), ("+.inf", .float (.infinity false)),
   ("+.Inf", .float (.infinity false)), ("+.INF", .float (.infinity false)),
   ("-.inf", .float (.infinity true)), ("-.Inf", .float (.infinity true)),
   ("-.INF", .float (.infinity true))]

def word? (t : Text) : Option Kind := (words.find? fun w => Text.ofString w.1 == t).map (·.2)

open IntLiteral

/-- An integer; with a sign it has 63 bits at most. -/
def int? (t : Text) : Option Int :=
  let digits := dropSign t
  match readNat none digits with
  | .error _ => none
  | .ok n =>
    if digits.length == t.length then some n
    else if t.head? == some (Text.byte '-') then if n ≤ Nat.pow 2 63 then some (-n) else none
    else if n < Nat.pow 2 63 then some n else none

/-- An exponent, if there is one: its letter, a sign and digits. -/
def isExponent (t : Text) : Bool :=
  match t with
  | [] => true
  | mark :: rest =>
    let digits := dropSign rest
    lowerByte mark == Text.byte 'e' && !digits.isEmpty && digits.all isDigit

/-- Digits with a point among them or none, and an exponent. -/
def isDecimal (t : Text) : Bool :=
  let body := dropSign t
  let whole := body.takeWhile isDigit
  match body.dropWhile isDigit with
  | [] => !whole.isEmpty
  | b :: rest =>
    if b == Text.byte '.' then
      (!whole.isEmpty || !(rest.takeWhile isDigit).isEmpty) && isExponent (rest.dropWhile isDigit)
    else !whole.isEmpty && isExponent (b :: rest)

/-- A binary or octal integer with a sign between its mark and its digits. -/
def innerSigned? (t : Text) : Option Int :=
  let base? : Option Nat :=
    if Text.startsWith "0b" t then some 2 else if Text.startsWith "0o" t then some 8 else none
  match base? with
  | none => none
  | some base =>
    match readInt (some base) (t.drop 2) with
    | .ok v => some v.toInt
    | .error _ => none

/-- A number that starts with a digit or a sign. Underscores do not count. -/
def number? (t : Text) : Option Kind :=
  let digits := t.filter (· != underscore)
  match int? digits with
  | some n => some (.int n)
  | none =>
    if isDecimal digits then (FloatLiteral.read digits).map .float
    else (innerSigned? digits).map .int

/-- The kind of a plain scalar. -/
def ofPlain (t : Text) : Kind :=
  match word? t, t with
  | some k, _ => k
  | none, [] => .null
  | none, b :: _ =>
    if b == Text.byte '.' then ((FloatLiteral.read t).map .float).getD .text
    else if isDigit b || b == Text.byte '+' || b == Text.byte '-' then (number? t).getD .text
    else .text

def ofScalar (isPlain : Bool) (t : Text) : Kind := if isPlain then ofPlain t else .text

end Kind

end Stack6502.Yaml
