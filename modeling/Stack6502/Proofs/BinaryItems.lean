import Mathlib.Tactic.Ring
import Stack6502.Cbor

/-!
# Binary items read back

A reader takes one item off the front of some bytes and returns it with the bytes after it. It is
not told how items are written: a head may hold its number in more bytes than it needs. What was
written is read back, whatever follows it.
-/
namespace Stack6502.Cbor

def Kind.major : Kind → Nat
  | .unsigned => 0
  | .text => 3
  | .array => 4
  | .map => 5

def ofBigEndian (bytes : List UInt8) : Nat := bytes.foldl (fun n b => n * 256 + b.toNat) 0

def takeBytes (n : Nat) (t : List UInt8) : Option (List UInt8 × List UInt8) :=
  if n ≤ t.length then some (t.take n, t.drop n) else none

/-- The number of a head with the five low bits `detail`: these bits themselves, or one, two, four
or eight bytes. -/
def readNumber (detail : Nat) (t : List UInt8) : Option (Nat × List UInt8) :=
  if detail < 24 then some (detail, t)
  else if detail < 28 then
    (takeBytes (Nat.pow 2 (detail - 24)) t).map fun p => (ofBigEndian p.1, p.2)
  else none

def readHead (kind : Kind) : List UInt8 → Option (Nat × List UInt8)
  | [] => none
  | b :: rest => if b.toNat / 32 = kind.major then readNumber (b.toNat % 32) rest else none

def readText (t : List UInt8) : Option (Text × List UInt8) := do
  let (length, t) ← readHead .text t
  takeBytes length t

def readPairs : (count : Nat) → List UInt8 → Option (List (Text × Text) × List UInt8)
  | 0, t => some ([], t)
  | count + 1, t => do
    let (key, t) ← readText t
    let (value, t) ← readText t
    let (pairs, t) ← readPairs count t
    some ((key, value) :: pairs, t)

def readMap (t : List UInt8) : Option (List (Text × Text) × List UInt8) := do
  let (count, t) ← readHead .map t
  readPairs count t

/-! ### Numbers and heads -/

theorem takeBytes_append {bytes rest : List UInt8} {n : Nat} (h : bytes.length = n) :
    takeBytes n (bytes ++ rest) = some (bytes, rest) := by
  subst h
  simp [takeBytes]

theorem length_bigEndian (width n : Nat) : (bigEndian width n).length = width := by
  induction width with
  | zero => rfl
  | succ width ih => rw [bigEndian, List.length_cons, ih]

theorem foldl_bigEndian (width n start : Nat) :
    (bigEndian width n).foldl (fun n b => n * 256 + b.toNat) start =
      start * 256 ^ width + n % 256 ^ width := by
  induction width generalizing start with
  | zero => simp [bigEndian, Nat.mod_one]
  | succ width ih =>
    have hbyte : (UInt8.ofNat (n / Nat.pow 256 width)).toNat = n / 256 ^ width % 256 :=
      UInt8.toNat_ofNat'
    have hsplit : n % 256 ^ (width + 1) =
        n % 256 ^ width + 256 ^ width * (n / 256 ^ width % 256) := by
      rw [pow_succ, Nat.mod_mul]
    rw [bigEndian, List.foldl_cons, ih, hbyte, hsplit]
    ring

theorem ofBigEndian_bigEndian {width n : Nat} (h : n < 256 ^ width) :
    ofBigEndian (bigEndian width n) = n := by
  rw [ofBigEndian, foldl_bigEndian, Nat.zero_mul, Nat.zero_add, Nat.mod_eq_of_lt h]

theorem readHead_first (kind : Kind) {detail : Nat} (h : detail < 32) (rest : List UInt8) :
    readHead kind (UInt8.ofNat (kind.bits + detail) :: rest) = readNumber detail rest := by
  have hbits : kind.bits = 32 * kind.major ∧ kind.major < 8 := by cases kind <;> decide
  have hbyte : (UInt8.ofNat (kind.bits + detail)).toNat = kind.bits + detail :=
    UInt8.toNat_ofNat_of_lt' (show kind.bits + detail < 256 by omega)
  have hmajor : (kind.bits + detail) / 32 = kind.major := by omega
  have hdetail : (kind.bits + detail) % 32 = detail := by omega
  rw [readHead, hbyte, if_pos hmajor, hdetail]

/-- A number in `2 ^ step` bytes, told by the detail `24 + step`. -/
theorem readHead_bigEndian (kind : Kind) {step n : Nat} (hstep : step < 4)
    (hn : n < 256 ^ 2 ^ step) (rest : List UInt8) :
    readHead kind (UInt8.ofNat (kind.bits + (24 + step)) :: bigEndian (2 ^ step) n ++ rest) =
      some (n, rest) := by
  have hinline : ¬24 + step < 24 := by omega
  have hbytes : 24 + step < 28 := by omega
  have hwidth : Nat.pow 2 (24 + step - 24) = 2 ^ step := by rw [Nat.add_sub_cancel_left]; rfl
  rw [List.cons_append, readHead_first kind (by omega), readNumber, if_neg hinline, if_pos hbytes,
    hwidth, takeBytes_append (length_bigEndian _ n), Option.map_some, ofBigEndian_bigEndian hn]

/-- Numbers of up to eight bytes are read back from the head they were written in. -/
theorem readHead_head (kind : Kind) {n : Nat} (h : n < 0x10000000000000000) (rest : List UInt8) :
    readHead kind (head kind n ++ rest) = some (n, rest) := by
  unfold head
  dsimp only
  split_ifs with h0 h1 h2 h4
  · rw [List.cons_append, readHead_first kind (by omega), readNumber, if_pos h0, List.nil_append]
  · exact readHead_bigEndian kind (by decide : 0 < 4) h1 rest
  · exact readHead_bigEndian kind (by decide : 1 < 4) h2 rest
  · exact readHead_bigEndian kind (by decide : 2 < 4) h4 rest
  · exact readHead_bigEndian kind (by decide : 3 < 4) h rest

/-! ### Texts and maps -/

/-- The length takes at most eight bytes, as the length of any text in memory does. -/
def Fits (t : Text) : Prop := t.length < 0x10000000000000000

instance (t : Text) : Decidable (Fits t) := inferInstanceAs (Decidable (_ < _))

theorem readText_text {t : Text} (h : Fits t) (rest : List UInt8) :
    readText (text t ++ rest) = some (t, rest) := by
  rw [readText, text, List.append_assoc, readHead_head .text h]
  exact takeBytes_append rfl

theorem readPairs_flatMap {pairs : List (Text × Text)} (h : ∀ p ∈ pairs, Fits p.1 ∧ Fits p.2)
    (rest : List UInt8) : readPairs pairs.length
      (pairs.flatMap (fun p => pair p.1 p.2) ++ rest) = some (pairs, rest) := by
  induction pairs with
  | nil => rfl
  | cons p pairs ih =>
    obtain ⟨hp, hpairs⟩ := List.forall_mem_cons.mp h
    rw [List.flatMap_cons, List.length_cons, readPairs, pair, List.append_assoc, List.append_assoc,
      readText_text hp.1]
    simp [readText_text hp.2, ih hpairs]

/-! ### Arrays without a length -/

theorem length_le_of_readNumber {detail n : Nat} {t rest : List UInt8}
    (h : readNumber detail t = some (n, rest)) : rest.length ≤ t.length := by
  unfold readNumber takeBytes at h
  split_ifs at h with hinline hbytes hlength
  · cases h
    exact Nat.le_refl _
  · cases h
    simp
  · cases h

theorem length_lt_of_readHead {kind : Kind} {n : Nat} {t rest : List UInt8}
    (h : readHead kind t = some (n, rest)) : rest.length < t.length := by
  cases t with
  | nil => cases h
  | cons b t =>
    rw [readHead] at h
    split_ifs at h
    exact Nat.lt_succ_of_le (length_le_of_readNumber h)

/-- Unsigned numbers up to the mark that closes an array. -/
def readNumbers (t : List UInt8) : Option (List Nat × List UInt8) :=
  if t.head? = some 0xff then some ([], t.tail)
  else
    match _h : readHead .unsigned t with
    | none => none
    | some (n, rest) => (readNumbers rest).map fun p => (n :: p.1, p.2)
termination_by t.length
decreasing_by exact length_lt_of_readHead ‹_›

def readOpenArray : List UInt8 → Option (List Nat × List UInt8)
  | [] => none
  | b :: t => if b.toNat / 32 = Kind.array.major ∧ b.toNat % 32 = 31 then readNumbers t else none

/-- The mark is no head of a number. -/
theorem head?_ne_of_readHead {n : Nat} {t rest : List UInt8}
    (h : readHead .unsigned t = some (n, rest)) : t.head? ≠ some 0xff := by
  cases t with
  | nil => cases h
  | cons b t =>
    intro hmark
    cases Option.some.inj hmark
    cases h

theorem readNumbers_flatMap {ns : List Nat} (h : ∀ n ∈ ns, n < 0x10000000000000000)
    (rest : List UInt8) :
    readNumbers (ns.flatMap (head .unsigned) ++ 0xff :: rest) = some (ns, rest) := by
  induction ns with
  | nil =>
    rw [readNumbers]
    rfl
  | cons n ns ih =>
    obtain ⟨hn, hns⟩ := List.forall_mem_cons.mp h
    have hhead := readHead_head .unsigned hn (ns.flatMap (head .unsigned) ++ 0xff :: rest)
    rw [List.flatMap_cons, List.append_assoc, readNumbers, if_neg (head?_ne_of_readHead hhead)]
    split
    next hnone => cases hhead.symm.trans hnone
    next m left hsome =>
      cases hhead.symm.trans hsome
      rw [ih hns, Option.map_some]

theorem readOpenArray_openArray {ns : List Nat} (h : ∀ n ∈ ns, n < 0x10000000000000000)
    (rest : List UInt8) : readOpenArray (openArray ns ++ rest) = some (ns, rest) := by
  have hfirst : (UInt8.ofNat (Kind.array.bits + 31)).toNat / 32 = Kind.array.major ∧
      (UInt8.ofNat (Kind.array.bits + 31)).toNat % 32 = 31 := by decide
  rw [openArray, List.cons_append, List.cons_append, readOpenArray, if_pos hfirst,
    List.append_assoc]
  exact readNumbers_flatMap h rest

end Stack6502.Cbor
