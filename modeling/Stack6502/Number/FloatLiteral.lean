import Stack6502.Number.Double
import Stack6502.Number.IntLiteral

/-!
# Float literals

Decimal literals, hexadecimal literals with a binary exponent, and the words for infinity and
NaN, read to the nearest double. A literal beyond the largest double has no value.
-/
namespace Stack6502.FloatLiteral

open IntLiteral

/-- The parts of a literal before its value is formed. -/
structure Parts where
  whole : Text
  fraction : Text
  exponent : Option Int
  deriving DecidableEq, Repr

def isDigitOf (hex : Bool) (b : UInt8) : Bool :=
  isDigit b || (hex && Text.byte 'a' ≤ lowerByte b && lowerByte b ≤ Text.byte 'f')

/-- Exponents stop growing once they have five digits: no double is that large or small. -/
def exponentOf (digits : Text) : Nat :=
  digits.foldl (fun e b => if b == underscore then e
    else if e < 10000 then e * 10 + (b.toNat - 48) else e) 0

/-- The exponent after its mark: a sign and digits up to the end. -/
def readExponent (t : Text) : Option Int :=
  let digits := dropSign t
  match digits with
  | [] => none
  | b :: _ =>
    if isDigit b && digits.all (fun b => isDigit b || b == underscore) then
      let e : Int := exponentOf digits
      some (if t.head? == some (Text.byte '-') then -e else e)
    else none

def readParts (hex : Bool) (t : Text) : Option Parts :=
  let inDigits := fun b => isDigitOf hex b || b == underscore
  let whole := t.takeWhile inDigits
  let rest := t.dropWhile inDigits
  let (fraction, rest) := match rest with
    | b :: rest' =>
      if b == Text.byte '.' then (rest'.takeWhile inDigits, rest'.dropWhile inDigits)
      else ([], rest)
    | [] => ([], [])
  let digits := fun t : Text => t.filter (· != underscore)
  let parts : Option Int → Parts := fun e => ⟨digits whole, digits fraction, e⟩
  if (digits whole).isEmpty && (digits fraction).isEmpty then none
  else match rest with
    | [] => if hex then none else some (parts none)
    | mark :: rest =>
      if lowerByte mark == Text.byte (if hex then 'p' else 'e') then
        (readExponent rest).map fun e => parts (some e)
      else none

def digitsValue (base : Nat) (t : Text) : Nat :=
  t.foldl (fun n b => n * base + (digit? b).getD 0) 0

/-- The number of digits of `n` in base ten. -/
def decimalSize (n : Nat) : Nat := if n = 0 then 0 else (Nat.toDigits 10 n).length

/-- `n * 10 ^ e`, unless it is too large. Exponents far from the doubles are not computed. -/
def ofDecimal (negative : Bool) (n : Nat) (e : Int) : Option Double :=
  let size : Int := decimalSize n + e
  if n = 0 || size < -330 then some (.zero negative)
  else if 310 < size then none
  else
    let x := Double.ofRatio negative (n * Nat.pow 10 e.toNat) (Nat.pow 10 (-e).toNat)
    if x.isInfinite then none else some x

/-- `n * 2 ^ e`, unless it is too large. -/
def ofBinary (negative : Bool) (n : Nat) (e : Int) : Option Double :=
  let size : Int := n.log2 + e
  if n = 0 || size < -1200 then some (.zero negative)
  else if 1100 < size then none
  else
    let x := Double.ofRatio negative (n * Nat.pow 2 e.toNat) (Nat.pow 2 (-e).toNat)
    if x.isInfinite then none else some x

/-- The words, in any case: an infinity may have a sign, a NaN may not. -/
def readWord (t : Text) : Option Double :=
  let word := (dropSign t).map lowerByte
  if word = "inf" || word = "infinity" then
    some (.infinity (t.head? == some (Text.byte '-')))
  else if t.map lowerByte = "nan" then some .nan
  else none

def readNumber (t : Text) : Option Double := do
  let negative := t.head? == some (Text.byte '-')
  let body := dropSign t
  let hex := match body with
    | zero :: mark :: _ :: _ => zero == Text.byte '0' && lowerByte mark == Text.byte 'x'
    | _ => false
  let parts ← readParts hex (if hex then body.drop 2 else body)
  if t.contains underscore && !underscoresOk t then none
  else
    let e := parts.exponent.getD 0
    let digits := parts.whole ++ parts.fraction
    if hex then ofBinary negative (digitsValue 16 digits) (e - 4 * parts.fraction.length)
    else ofDecimal negative (digitsValue 10 digits) (e - parts.fraction.length)

def read (t : Text) : Option Double :=
  match readWord t with
  | some x => some x
  | none => readNumber t

end Stack6502.FloatLiteral
