import Stack6502.Text.Basic

/-!
# Binary items

The few kinds of CBOR items in use: unsigned integers, texts, maps of texts, and arrays of open
length. The head of an item holds its kind in three bits and a length or number after them, in the
same byte if it is below 24 and else in one, two, four or eight bytes.
-/
namespace Stack6502.Cbor

inductive Kind
  | unsigned | text | array | map
  deriving DecidableEq, Repr

/-- The kind in the three high bits of the first byte. -/
def Kind.bits : Kind → Nat
  | .unsigned => 0x00
  | .text => 0x60
  | .array => 0x80
  | .map => 0xa0

/-- `n` in `width` bytes, the most significant first. -/
def bigEndian : (width n : Nat) → List UInt8
  | 0, _ => []
  | width + 1, n => UInt8.ofNat (n / Nat.pow 256 width) :: bigEndian width n

def head (kind : Kind) (n : Nat) : List UInt8 :=
  let first := fun detail => UInt8.ofNat (kind.bits + detail)
  if n < 24 then [first n]
  else if n < 0x100 then first 24 :: bigEndian 1 n
  else if n < 0x10000 then first 25 :: bigEndian 2 n
  else if n < 0x100000000 then first 26 :: bigEndian 4 n
  else first 27 :: bigEndian 8 n

def text (t : Text) : List UInt8 := head .text t.length ++ t

/-- A key and its value, as they stand in a map. -/
def pair (key value : Text) : List UInt8 := text key ++ text value

/-- The item that stands for nothing. -/
def null : List UInt8 := [0xf6]

/-- An array without a length, closed by a mark. -/
def openArray (ns : List Nat) : List UInt8 :=
  UInt8.ofNat (Kind.array.bits + 31) :: ns.flatMap (head .unsigned) ++ [0xff]

end Stack6502.Cbor
