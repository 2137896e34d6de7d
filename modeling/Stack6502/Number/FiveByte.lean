import Stack6502.Number.FloatText

/-!
# Five-byte floats

The format of the BASIC interpreter: a byte of exponent, biased by 128, where zero stands for the
number zero, and four bytes of mantissa whose leading one is replaced by the sign. Encoding cuts
off the bits that do not fit.
-/
namespace Stack6502

structure FiveByte where
  exponent : UInt8
  m1 : UInt8
  m2 : UInt8
  m3 : UInt8
  m4 : UInt8
  deriving DecidableEq, Repr

namespace FiveByte

def zero : FiveByte := ⟨0, 0, 0, 0, 0⟩

def bytes (b : FiveByte) : List UInt8 := [b.exponent, b.m1, b.m2, b.m3, b.m4]

/-- A number of too large a magnitude, or none at all. -/
structure Overflow where
  number : Double
  deriving DecidableEq, Repr

def Overflow.message (o : Overflow) : Text :=
  o.number.text .message ++ ": float out of range"

/-- The leading 32 bits of a positive number. -/
def top32 (n : Nat) : Nat := n * Nat.pow 2 (31 - n.log2) / Nat.pow 2 (n.log2 - 31)

/-- The bytes of a 32-bit mantissa with its leading one replaced by the sign. -/
def pack (negative : Bool) (exponent mantissa : Nat) : FiveByte :=
  { exponent := UInt8.ofNat exponent
    m1 := UInt8.ofNat (mantissa / 0x1000000 % 0x80 + if negative then 0x80 else 0)
    m2 := UInt8.ofNat (mantissa / 0x10000)
    m3 := UInt8.ofNat (mantissa / 0x100)
    m4 := UInt8.ofNat mantissa }

/-- Numbers below the least exponent become zero. -/
def encode (x : Double) : Except Overflow FiveByte :=
  if !x.isFinite then .error ⟨x⟩
  else if x.isZero then .ok zero
  else
    let exponent := x.exponent + x.mantissa.log2 + 129
    if exponent ≤ 0 then .ok zero
    else if 255 < exponent then .error ⟨x.abs⟩
    else .ok (pack x.isNegative exponent.toNat (top32 x.mantissa))

def isNegative (b : FiveByte) : Bool := 0x80 ≤ b.m1.toNat

/-- The 31 bits of mantissa after the leading one. -/
def fraction (b : FiveByte) : Nat :=
  ((b.m1.toNat % 0x80 * 0x100 + b.m2.toNat) * 0x100 + b.m3.toNat) * 0x100 + b.m4.toNat

def decode (b : FiveByte) : Double :=
  if b.exponent = 0 then .zero false
  else .ofFields b.isNegative (b.exponent.toNat + 894) (b.fraction * 0x200000)

end FiveByte

end Stack6502
