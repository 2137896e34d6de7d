/-!
# Doubles as exact numbers

A double is kept as its 64 bits. A finite one stands for `mantissa * 2 ^ exponent` with a sign,
and every operation works on that exact value, so no machine arithmetic is involved.
-/
namespace Stack6502

/-- Sign, eleven bits of exponent and 52 bits of fraction. -/
structure Double where
  bits : UInt64
  deriving DecidableEq, Repr

namespace Double

def isNegative (x : Double) : Bool := Nat.pow 2 63 ≤ x.bits.toNat

def exponentField (x : Double) : Nat := x.bits.toNat / Nat.pow 2 52 % Nat.pow 2 11

def fraction (x : Double) : Nat := x.bits.toNat % Nat.pow 2 52

def isNaN (x : Double) : Bool := x.exponentField == 2047 && x.fraction != 0

def isInfinite (x : Double) : Bool := x.exponentField == 2047 && x.fraction == 0

def isFinite (x : Double) : Bool := x.exponentField != 2047

def mantissa (x : Double) : Nat :=
  if x.exponentField = 0 then x.fraction else Nat.pow 2 52 + x.fraction

def exponent (x : Double) : Int :=
  if x.exponentField = 0 then -1074 else x.exponentField - 1075

def isZero (x : Double) : Bool := x.exponentField == 0 && x.fraction == 0

def ofFields (negative : Bool) (exponentField fraction : Nat) : Double :=
  ⟨UInt64.ofNat ((if negative then Nat.pow 2 63 else 0) + exponentField * Nat.pow 2 52 + fraction)⟩

def zero (negative : Bool) : Double := ofFields negative 0 0

def infinity (negative : Bool) : Double := ofFields negative 2047 0

def nan : Double := ⟨0x7ff8000000000001⟩

/-- The same number without its sign. -/
def abs (x : Double) : Double := ofFields false x.exponentField x.fraction

/-- Equal as numbers: both zeros are equal, and a NaN equals nothing. -/
def same (x y : Double) : Bool :=
  !x.isNaN && !y.isNaN && (x == y || (x.isZero && y.isZero))

/-- How often `2 ^ unit` goes into `num / den`, what is left over, and the divisor it is left of. -/
def inUnits (num den : Nat) (unit : Int) : Nat × Nat × Nat :=
  let num := num * Nat.pow 2 (-unit).toNat
  let den := den * Nat.pow 2 unit.toNat
  (num / den, num % den, den)

/-- The unit in which `num / den` has 53 bits, or the smallest unit there is. -/
def unitOf (num den : Nat) : Int :=
  let guess : Int := num.log2 - den.log2 - 52
  max (-1074) (if (inUnits num den guess).1 < Nat.pow 2 52 then guess - 1 else guess)

/-- The double nearest to `num / den`; a tie goes to the even mantissa, and what is too large
becomes infinite. -/
def ofRatio (negative : Bool) (num den : Nat) : Double :=
  if num = 0 then zero negative
  else
    let unit := unitOf num den
    let (whole, left, den) := inUnits num den unit
    let up := 2 * left > den || (2 * left == den && whole % 2 == 1)
    let bits := (unit + 1074).toNat * Nat.pow 2 52 + (if up then whole + 1 else whole)
    if 2047 * Nat.pow 2 52 ≤ bits then infinity negative
    else ofFields negative 0 bits

def ofInt (i : Int) : Double := ofRatio (i < 0) i.natAbs 1

end Double

end Stack6502
