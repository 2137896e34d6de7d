import Stack6502.Text.Basic

/-!
# Integer literals

Literals of 64-bit integers: digits of a given base, or a base named by the literal itself
(`0x`, `0o`, `0b`, a leading zero for octal), in which case underscores may stand between digits.
-/
namespace Stack6502

inductive IntFault
  | malformed
  | outOfRange
  deriving DecidableEq, Repr

namespace IntLiteral

def isDigit (b : UInt8) : Bool := Text.byte '0' ≤ b && b ≤ Text.byte '9'

/-- The byte with ASCII letters in lower case. -/
def lowerByte (b : UInt8) : UInt8 :=
  if Text.byte 'A' ≤ b && b ≤ Text.byte 'Z' then b + 0x20 else b

/-- The value of a digit of some base up to 36. -/
def digit? (b : UInt8) : Option Nat :=
  let c := lowerByte b
  if isDigit b then some (b.toNat - 48)
  else if Text.byte 'a' ≤ c && c ≤ Text.byte 'z' then some (c.toNat - 87)
  else none

def underscore : UInt8 := Text.byte '_'

/-- Reads digits onto `acc`; the first fault from the left counts. -/
def readDigits (base : Nat) (underscores : Bool) : (acc : Nat) → Text → Except IntFault Nat
  | acc, [] => .ok acc
  | acc, b :: t =>
    if underscores && b == underscore then readDigits base underscores acc t
    else match digit? b with
      | none => .error .malformed
      | some d =>
        if base ≤ d then .error .malformed
        else if Nat.pow 2 64 ≤ acc * base + d then .error .outOfRange
        else readDigits base underscores (acc * base + d) t

/-- The base a literal names and its digits. -/
def splitBase (t : Text) : Nat × Text :=
  match t with
  | zero :: mark :: d :: rest =>
    if zero == Text.byte '0' then
      let mark' := lowerByte mark
      if mark' == Text.byte 'b' then (2, d :: rest)
      else if mark' == Text.byte 'o' then (8, d :: rest)
      else if mark' == Text.byte 'x' then (16, d :: rest)
      else (8, mark :: d :: rest)
    else (10, t)
  | zero :: rest => if zero == Text.byte '0' then (8, rest) else (10, t)
  | [] => (10, t)

/-- What was read last while underscores are checked. -/
inductive Seen
  | start
  | digit
  | underscore
  | other
  deriving DecidableEq, Repr

def checkUnderscores (hex : Bool) : Seen → Text → Bool
  | seen, [] => seen != .underscore
  | seen, b :: t =>
    if isDigit b || (hex && Text.byte 'a' ≤ lowerByte b && lowerByte b ≤ Text.byte 'f') then
      checkUnderscores hex .digit t
    else if b == underscore then seen == .digit && checkUnderscores hex .underscore t
    else seen != .underscore && checkUnderscores hex .other t

def dropSign : Text → Text
  | b :: t => if b == Text.byte '-' || b == Text.byte '+' then t else b :: t
  | [] => []

/-- Every underscore stands between two digits, or between a base mark and a digit. -/
def underscoresOk (t : Text) : Bool :=
  match dropSign t with
  | zero :: mark :: rest =>
    let mark' := lowerByte mark
    if zero == Text.byte '0' &&
        (mark' == Text.byte 'b' || mark' == Text.byte 'o' || mark' == Text.byte 'x') then
      checkUnderscores (mark' == Text.byte 'x') .digit rest
    else checkUnderscores false .start (zero :: mark :: rest)
  | t => checkUnderscores false .start t

/-- An unsigned literal; without a `base` it names its own. -/
def readNat (base : Option Nat) (t : Text) : Except IntFault Nat :=
  if t.isEmpty then .error .malformed
  else match base with
    | some b => readDigits b false 0 t
    | none => do
      let (b, digits) := splitBase t
      let n ← readDigits b true 0 digits
      if t.contains underscore && !underscoresOk t then .error .malformed else .ok n

/-- A literal with an optional sign. -/
def readInt (base : Option Nat) (t : Text) : Except IntFault Int64 := do
  let negative := t.head? == some (Text.byte '-')
  let n ← readNat base (dropSign t)
  if negative then
    if Nat.pow 2 63 < n then .error .outOfRange else .ok (Int64.ofInt (-n))
  else if Nat.pow 2 63 ≤ n then .error .outOfRange else .ok (Int64.ofNat n)

end IntLiteral

end Stack6502
