import Stack6502.Cbor

/-!
# Bit sets

Sets of natural numbers as words of 64 bits. Words are added when a larger number is inserted and
never removed.
-/
namespace Stack6502

structure BitSet where
  words : List UInt64
  deriving DecidableEq, Repr

namespace BitSet

def empty : BitSet := ⟨[]⟩

/-- The bits of `mask` set in the word at `index`. -/
def setWord : (index : Nat) → (mask : UInt64) → List UInt64 → List UInt64
  | 0, mask, [] => [mask]
  | 0, mask, w :: ws => (w ||| mask) :: ws
  | index + 1, mask, [] => 0 :: setWord index mask []
  | index + 1, mask, w :: ws => w :: setWord index mask ws

def mask (k : Nat) : UInt64 := UInt64.ofNat (Nat.pow 2 (k % 64))

def insert (s : BitSet) (k : Nat) : BitSet := ⟨setWord (k / 64) (mask k) s.words⟩

def contains (s : BitSet) (k : Nat) : Bool :=
  match s.words[k / 64]? with
  | some w => w &&& mask k != 0
  | none => false

/-- Words beyond the shorter of the two sets stay as they are. -/
def clearWords : (words others : List UInt64) → List UInt64
  | w :: ws, o :: os => (w &&& ~~~o) :: clearWords ws os
  | ws, _ => ws

def subtract (s t : BitSet) : BitSet := ⟨clearWords s.words t.words⟩

/-- The place of the lowest set bit of a word, 64 if no bit is set. -/
def trailingZeros (w : UInt64) : Nat := w.toBitVec.ctz.toNat

theorem testBit_mask (k j : Nat) : (mask k).toNat.testBit j = decide (k % 64 = j) := by
  have hlt : Nat.pow 2 (k % 64) < Nat.pow 2 64 :=
    Nat.pow_lt_pow_right (by decide) (Nat.mod_lt k (by decide))
  rw [mask, UInt64.toNat_ofNat_of_lt' hlt]
  exact Nat.testBit_two_pow

theorem testBit_and_not (w o : UInt64) (j : Nat) :
    (w &&& ~~~o).toNat.testBit j = (w.toNat.testBit j && !o.toNat.testBit j) := by
  have hbits : (w &&& ~~~o).toBitVec.getLsbD j =
      (w.toBitVec.getLsbD j && !o.toBitVec.getLsbD j) := by
    rw [UInt64.toBitVec_and, UInt64.toBitVec_not, BitVec.getLsbD_and, BitVec.getLsbD_not]
    by_cases hj : j < 64
    · rw [decide_eq_true hj, Bool.true_and]
    · rw [BitVec.getLsbD_of_ge w.toBitVec j (Nat.le_of_not_lt hj), Bool.false_and, Bool.false_and]
  exact hbits

theorem trailingZeros_lt {w : UInt64} (h : w ≠ 0) : trailingZeros w < 64 := by
  have hne : w.toBitVec ≠ 0#64 := fun hw => h (UInt64.toBitVec_inj.mp hw)
  exact BitVec.lt_def.mp (BitVec.ctz_lt_iff_ne_zero.mpr hne)

theorem testBit_trailingZeros {w : UInt64} (h : w ≠ 0) :
    w.toNat.testBit (trailingZeros w) = true :=
  BitVec.getLsbD_true_ctz_of_ne_zero fun hw => h (UInt64.toBitVec_inj.mp hw)

theorem testBit_of_lt_trailingZeros {w : UInt64} {j : Nat} (h : j < trailingZeros w) :
    w.toNat.testBit j = false :=
  BitVec.getLsbD_false_of_lt_ctz h

/-- A word without its lowest set bit. -/
def clearLowest (w : UInt64) : UInt64 := w &&& ~~~mask (trailingZeros w)

theorem testBit_clearLowest {w : UInt64} (h : w ≠ 0) (j : Nat) :
    (clearLowest w).toNat.testBit j = (w.toNat.testBit j && trailingZeros w != j) := by
  rw [clearLowest, testBit_and_not, testBit_mask, Nat.mod_eq_of_lt (trailingZeros_lt h)]
  rfl

theorem clearLowest_lt {w : UInt64} (h : w ≠ 0) : (clearLowest w).toNat < w.toNat := by
  have hle : (clearLowest w).toNat ≤ w.toNat := by
    rw [clearLowest, UInt64.toNat_and]
    exact Nat.and_le_left
  refine Nat.lt_of_le_of_ne hle fun heq => ?_
  have hbit := testBit_clearLowest h (trailingZeros w)
  rw [heq, testBit_trailingZeros h, bne_self_eq_false, Bool.and_false] at hbit
  exact Bool.noConfusion hbit

/-- The numbers in a word, which stands for those from `first` on: its lowest bit is taken out as
long as there is one. -/
def wordKeys (first : Nat) (w : UInt64) : List Nat :=
  if w = 0 then []
  else (first + trailingZeros w) :: wordKeys first (clearLowest w)
termination_by w.toNat
decreasing_by exact clearLowest_lt ‹_›

def keysFrom : (first : Nat) → List UInt64 → List Nat
  | _, [] => []
  | first, w :: ws => wordKeys first w ++ keysFrom (first + 64) ws

/-- The numbers in the set in increasing order. -/
def keys (s : BitSet) : List Nat := keysFrom 0 s.words

def wordSize (w : UInt64) : Nat := (List.range 64).countP fun j => w &&& mask j != 0

def size (s : BitSet) : Nat := (s.words.map wordSize).foldr (· + ·) 0

/-- A set that never had a word is written as nothing. -/
def wire (s : BitSet) : List UInt8 :=
  if s.words.isEmpty then Cbor.null else Cbor.openArray s.keys

/-- Keys are 64-bit integers of which only those not negative can be in a set. -/
def key? (k : Int64) : Option Nat := if k < 0 then none else some k.toInt.toNat

def insert? (s : BitSet) (k : Int64) : Option BitSet := (key? k).map s.insert

/-- `count` keys from `k` on, one after the other. A key that cannot be inserted ends it: the set
stays as it is then, and the answer is false. -/
def insertKeys (s : BitSet) (k : Int64) : (count : Nat) → BitSet × Bool
  | 0 => (s, true)
  | count + 1 =>
    match s.insert? k with
    | some t => t.insertKeys (k + 1) count
    | none => (s, false)

/-- All keys from `l` up to `r`, which is left out. -/
def insertRange (s : BitSet) (l r : Int64) : BitSet × Bool :=
  s.insertKeys l (r.toInt - l.toInt).toNat

def insertRange? (s : BitSet) (l r : Int64) : Option BitSet :=
  match s.insertRange l r with
  | (t, true) => some t
  | (_, false) => none

def contains? (s : BitSet) (k : Int64) : Option Bool := (key? k).map s.contains

end BitSet

end Stack6502
