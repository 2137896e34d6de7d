import Stack6502.Number.Shortest

/-!
# Doubles as text

A double is written with its shortest digits, positionally while its decimal exponent lies from
-4 up to a limit of the style, and otherwise with an exponent of a sign and at least two digits.
-/
namespace Stack6502

/-- Decimal exponents from this one on are written with an exponent. -/
structure FloatStyle where
  limit : Int
  deriving DecidableEq, Repr

namespace FloatStyle

/-- The style of values in listings and of comments in assembly. -/
def value : FloatStyle := ⟨6⟩

/-- The style of numbers in messages. -/
def message : FloatStyle := ⟨21⟩

end FloatStyle

namespace Double

def zeros (n : Nat) : Text := List.replicate n (Text.byte '0')

/-- Digits with the point after the first `point` of them. -/
def positional (digits : Text) (point : Int) : Text :=
  if point ≤ 0 then "0." ++ zeros (-point).toNat ++ digits
  else if digits.length ≤ point then digits ++ zeros (point - digits.length).toNat
  else digits.take point.toNat ++ [Text.byte '.'] ++ digits.drop point.toNat

def exponential (digits : Text) (point : Int) : Text :=
  let e := point - 1
  let tail := digits.drop 1
  digits.take 1 ++ (if tail.isEmpty then [] else Text.byte '.' :: tail) ++
    [Text.byte 'e', Text.byte (if e < 0 then '-' else '+')] ++
    Text.padLeft 2 (Text.byte '0') (Text.ofNat e.natAbs)

def signText (x : Double) : Text := if x.isNegative then "-" else ""

def text (style : FloatStyle) (x : Double) : Text :=
  if x.isNaN then "NaN"
  else if x.isInfinite then (if x.isNegative then "-Inf" else "+Inf")
  else if x.isZero then x.signText ++ "0"
  else
    let d := x.shortest
    let all := Text.ofNat d.digits
    let digits := (all.reverse.dropWhile (· == Text.byte '0')).reverse
    let point := d.power + all.length
    x.signText ++
      (if point - 1 < -4 || style.limit ≤ point - 1 then exponential digits point
       else positional digits point)

end Double

end Stack6502
