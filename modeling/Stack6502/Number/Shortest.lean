import Stack6502.Number.Double
import Stack6502.Text.Basic

/-!
# The shortest decimal of a double

Of the decimals that read back as a given double, the shortest are those with the fewest digits,
and of these the nearest is taken. For each number of digits only the two neighbours of the exact
value on the grid of that many digits can be candidates.
-/
namespace Stack6502

/-- The number `digits * 10 ^ power`. -/
structure Decimal where
  digits : Nat
  power : Int
  deriving DecidableEq, Repr

namespace Decimal

/-- Numerator and denominator of the decimal counted in units of `2 ^ unit`. -/
def ratio (d : Decimal) (unit : Int) : Nat × Nat :=
  (d.digits * Nat.pow 10 d.power.toNat * Nat.pow 2 (-unit).toNat,
   Nat.pow 10 (-d.power).toNat * Nat.pow 2 unit.toNat)

end Decimal

/-- The numbers that round to a double, counted in a quarter of its unit. -/
structure RoundingRange where
  low : Nat
  value : Nat
  high : Nat
  unit : Int
  closed : Bool
  deriving DecidableEq, Repr

namespace RoundingRange

/-- Below a power of two the next double is only half as far away. -/
def ofDouble (x : Double) : RoundingRange :=
  let m := x.mantissa
  { low := 4 * m - (if m == Nat.pow 2 52 && x.exponentField > 1 then 1 else 2)
    value := 4 * m
    high := 4 * m + 2
    unit := x.exponent - 2
    closed := m % 2 == 0 }

def has (r : RoundingRange) (d : Decimal) : Bool :=
  let (num, den) := d.ratio r.unit
  if r.closed then r.low * den ≤ num && num ≤ r.high * den
  else r.low * den < num && num < r.high * den

/-- The nearer of a decimal below the value and its successor; a tie goes to even digits. -/
def nearer (r : RoundingRange) (below : Decimal) : Decimal :=
  let above := { below with digits := below.digits + 1 }
  let (low, den) := below.ratio r.unit
  let (high, _) := above.ratio r.unit
  let value := r.value * den
  if value - low < high - value || (value - low == high - value && below.digits % 2 == 0)
  then below else above

/-- The better of a decimal below the value and its successor, if one is in the range. -/
def pick? (r : RoundingRange) (below : Decimal) : Option Decimal :=
  let above := { below with digits := below.digits + 1 }
  match r.has below, r.has above with
  | true, true => some (r.nearer below)
  | true, false => some below
  | false, true => some above
  | false, false => none

end RoundingRange

namespace Double

/-- More decimal places than any positive double needs to reach its first digit. -/
def places : Nat := 400

/-- The value of a finite double times `10 ^ places`, rounded down. -/
def expansion (x : Double) : Nat :=
  x.mantissa * Nat.pow 10 places * Nat.pow 2 x.exponent.toNat / Nat.pow 2 (-x.exponent).toNat

/-- The first `count` digits of a double whose expansion has `size` digits. -/
def leading (expansion size count : Nat) : Decimal :=
  ⟨expansion / Nat.pow 10 (size - count), (size - count : Nat) - (places : Int)⟩

/-- The shortest decimal of a finite positive or negative double, without its sign. Seventeen
digits are always enough. -/
def shortest (x : Double) : Decimal :=
  let expansion := x.expansion
  let size := (Nat.toDigits 10 expansion).length
  let range := RoundingRange.ofDouble x
  ((List.range 17).findSome? fun n => range.pick? (leading expansion size (n + 1))).getD
    (leading expansion size 17)

end Double

end Stack6502
