import Stack6502.Proofs.OperandStack

/-!
# The evaluation stack in memory

Entries stand in two pages, one for low and one for high bytes, and X points below the top entry.
`Represents.replace` is the one way in which code changes the stack: it takes some entries off
the top and leaves others there.
-/
namespace Stack6502

def lowSlot (i : Nat) : Word := .ofNat 16 (0xce00 + i)

def highSlot (i : Nat) : Word := .ofNat 16 (0xcf00 + i)

/-- Not in the two pages of the evaluation stack. -/
def OffStack (p : Word) : Prop := p.toNat < 0xce00 ∨ 0xcfff < p.toNat

/-- An entry in slot `i`; the high byte of a slot with a byte is free. -/
def Entry.StandsAt (m : Memory) (i : Nat) : Entry → Prop
  | .byte b => m (lowSlot i) = b
  | .word w => m (lowSlot i) = w.low ∧ m (highSlot i) = w.high

def Holds (m : Memory) : (i : Nat) → List Entry → Prop
  | _, [] => True
  | i, e :: st => e.StandsAt m i ∧ Holds m (i + 1) st

structure Represents (c : Cpu) (σ : Operands) : Prop where
  depth : c.x.toNat + σ.stack.length = 255
  slots : Holds c.mem (c.x.toNat + 1) σ.stack
  mem : ∀ p, OffStack p → c.mem p = σ.mem p

def Site.words (s : Site) : List Word := s.addresses.map (.ofInt 16)

/-- All bytes of the site are in memory and none is in the pages of the evaluation stack. -/
def Site.IsFree (s : Site) : Prop :=
  ∀ a ∈ s.addresses, 0 ≤ a ∧ a ≤ 0xffff ∧ (a < 0xce00 ∨ 0xcfff < a)

instance (s : Site) : Decidable s.IsFree :=
  inferInstanceAs (Decidable (∀ a ∈ s.addresses, _))

theorem Site.IsFree.offStack {s : Site} (h : s.IsFree) {p : Word} (hp : p ∈ s.words) :
    OffStack p := by
  obtain ⟨a, ha, rfl⟩ := List.mem_map.mp hp
  have hfree := h a ha
  rw [OffStack, BitVec.toNat_ofInt]
  omega

theorem Site.IsFree.first {w : Width} {a : Int} (h : Site.IsFree ⟨w, a⟩) :
    OffStack (.ofInt 16 a) :=
  h.offStack (by cases w <;> simp [Site.words, Site.addresses])

theorem Site.IsFree.second {a : Int} (h : Site.IsFree ⟨.word, a⟩) : OffStack (.ofInt 16 (a + 1)) :=
  h.offStack (by simp [Site.words, Site.addresses])

namespace Memory

variable {m m' : Memory} {a : Int}

theorem get_congr {w : Width} (h : ∀ p ∈ Site.words ⟨w, a⟩, m p = m' p) :
    Memory.get m a w = Memory.get m' a w := by
  cases w <;> simp_all [Memory.get, Site.words, Site.addresses]

theorem set_of_ne {e : Entry} {q : Word} (h : ∀ p ∈ Site.words ⟨e.width, a⟩, p ≠ q) :
    Memory.set m a e q = m q := by
  cases e with
  | byte b =>
    have hq : BitVec.ofInt 16 a ≠ q := h _ (by simp [Site.words, Site.addresses, Entry.width])
    exact Function.update_of_ne hq.symm _ _
  | word w =>
    have hlow : BitVec.ofInt 16 a ≠ q := h _ (by simp [Site.words, Site.addresses, Entry.width])
    have hhigh : BitVec.ofInt 16 (a + 1) ≠ q :=
      h _ (by simp [Site.words, Site.addresses, Entry.width])
    rw [Memory.set, Memory.put, Function.update_of_ne hhigh.symm, Function.update_of_ne hlow.symm]

theorem set_congr {e : Entry} {q : Word} (h : m q = m' q) :
    Memory.set m a e q = Memory.set m' a e q := by
  cases e <;> simp [Memory.set, Memory.put, Function.update_apply, h]

end Memory

section

variable {i j : Nat} {p : Word}

theorem toNat_lowSlot (hi : i < 256) : (lowSlot i).toNat = 0xce00 + i := by
  rw [lowSlot, BitVec.toNat_ofNat]
  omega

theorem toNat_highSlot (hi : i < 256) : (highSlot i).toNat = 0xcf00 + i := by
  rw [highSlot, BitVec.toNat_ofNat]
  omega

theorem lowSlot_ne (hi : i < 256) (hj : j < 256) (h : i ≠ j) : lowSlot i ≠ lowSlot j := by
  intro heq
  have hn := congrArg BitVec.toNat heq
  rw [toNat_lowSlot hi, toNat_lowSlot hj] at hn
  omega

theorem highSlot_ne (hi : i < 256) (hj : j < 256) (h : i ≠ j) : highSlot i ≠ highSlot j := by
  intro heq
  have hn := congrArg BitVec.toNat heq
  rw [toNat_highSlot hi, toNat_highSlot hj] at hn
  omega

theorem lowSlot_ne_highSlot (hi : i < 256) (hj : j < 256) : lowSlot i ≠ highSlot j := by
  intro heq
  have hn := congrArg BitVec.toNat heq
  rw [toNat_lowSlot hi, toNat_highSlot hj] at hn
  omega

theorem OffStack.ne_lowSlot (hp : OffStack p) (hi : i < 256) : p ≠ lowSlot i := by
  rintro rfl
  rw [OffStack, toNat_lowSlot hi] at hp
  omega

theorem OffStack.ne_highSlot (hp : OffStack p) (hi : i < 256) : p ≠ highSlot i := by
  rintro rfl
  rw [OffStack, toNat_highSlot hi] at hp
  omega

end

section

variable {m m' : Memory}

theorem Holds.append {i : Nat} {es st : List Entry} :
    Holds m i (es ++ st) ↔ Holds m i es ∧ Holds m (i + es.length) st := by
  induction es generalizing i with
  | nil => simp [Holds]
  | cons e es ih =>
    simp only [List.cons_append, Holds, ih, List.length_cons, and_assoc]
    rw [show i + 1 + es.length = i + (es.length + 1) by omega]

theorem Holds.congr {i : Nat} {st : List Entry} (h : Holds m i st) (hi : i + st.length ≤ 256)
    (hm : ∀ j, i ≤ j → j < 256 →
      m' (lowSlot j) = m (lowSlot j) ∧ m' (highSlot j) = m (highSlot j)) : Holds m' i st := by
  induction st generalizing i with
  | nil => trivial
  | cons e st ih =>
    obtain ⟨he, hst⟩ := h
    rw [List.length_cons] at hi
    obtain ⟨hlow, hhigh⟩ := hm i (Nat.le_refl i) (by omega)
    refine ⟨?_, ih hst (by omega) fun j hj => hm j (by omega)⟩
    cases e with
    | byte b => rwa [Entry.StandsAt, hlow]
    | word w => rwa [Entry.StandsAt, hlow, hhigh]

end

def SameBut (i : Nat) (m m' : Memory) : Prop :=
  ∀ p, p ≠ lowSlot i → p ≠ highSlot i → m' p = m p

namespace SameBut

variable {i : Nat} {m m' : Memory}

theorem update_low (h : SameBut i m m') (v : Byte) :
    SameBut i m (Function.update m' (lowSlot i) v) := by
  intro p hlow hhigh
  rw [Function.update_of_ne hlow]
  exact h p hlow hhigh

theorem update_high (h : SameBut i m m') (v : Byte) :
    SameBut i m (Function.update m' (highSlot i) v) := by
  intro p hlow hhigh
  rw [Function.update_of_ne hhigh]
  exact h p hlow hhigh

theorem refl : SameBut i m m := fun _ _ _ => rfl

theorem slot {j : Nat} (h : SameBut i m m') (hi : i < 256) (hj : j < 256) (hij : j ≠ i) :
    m' (lowSlot j) = m (lowSlot j) ∧ m' (highSlot j) = m (highSlot j) :=
  ⟨h _ (lowSlot_ne hj hi hij) (lowSlot_ne_highSlot hj hi),
    h _ (lowSlot_ne_highSlot hi hj).symm (highSlot_ne hj hi hij)⟩

theorem offStack {p : Word} (h : SameBut i m m') (hi : i < 256) (hp : OffStack p) : m' p = m p :=
  h p (hp.ne_lowSlot hi) (hp.ne_highSlot hi)

end SameBut

namespace Represents

variable {c d : Cpu} {σ : Operands}

/-- The entries `es` on top of the stack make place for `fs`. -/
theorem replace {m : Memory} {es fs st : List Entry} (h : Represents c σ)
    (hes : σ.stack = es ++ st) (hx : d.x.toNat + fs.length = c.x.toNat + es.length)
    (hfs : Holds d.mem (d.x.toNat + 1) fs)
    (hbelow : ∀ j, c.x.toNat + es.length < j → j < 256 →
      d.mem (lowSlot j) = c.mem (lowSlot j) ∧ d.mem (highSlot j) = c.mem (highSlot j))
    (hm : ∀ p, OffStack p → d.mem p = m p) : Represents d ⟨m, fs ++ st⟩ := by
  have hdepth := h.depth
  have hslots := h.slots
  rw [hes, Holds.append] at hslots
  rw [hes, List.length_append] at hdepth
  refine ⟨?_, Holds.append.mpr ⟨hfs, ?_⟩, hm⟩
  · rw [List.length_append]
    omega
  · rw [show d.x.toNat + 1 + fs.length = c.x.toNat + 1 + es.length by omega]
    exact hslots.2.congr (by omega) fun j hj => hbelow j (by omega)

/-- One entry `f` takes the place of `es` and stands in the last slot of theirs, or in the first
free one if there are none. -/
theorem replace_slot (es : List Entry) {st : List Entry} {f : Entry} (h : Represents c σ)
    (hes : σ.stack = es ++ st) (hx : d.x.toNat + 1 = c.x.toNat + es.length)
    (hbut : SameBut (c.x.toNat + es.length) c.mem d.mem)
    (hf : f.StandsAt d.mem (c.x.toNat + es.length)) : Represents d { σ with stack := f :: st } := by
  have hdepth := h.depth
  rw [hes, List.length_append] at hdepth
  have hlt : c.x.toNat + es.length < 256 := by omega
  show Represents d ⟨σ.mem, [f] ++ st⟩
  refine h.replace hes (by simpa using hx) ⟨hx ▸ hf, trivial⟩ ?_ ?_
  · intro j hj hj'
    exact hbut.slot hlt hj' (by omega)
  · intro p hp
    rw [hbut.offStack hlt hp, h.mem p hp]

/-- The entries `es` are dropped and an entry is written to a site off the stack. -/
theorem replace_site (es : List Entry) {st : List Entry} {e : Entry} {a : Int} (h : Represents c σ)
    (hes : σ.stack = es ++ st) (hx : d.x.toNat = c.x.toNat + es.length)
    (hd : d.mem = Memory.set c.mem a e) (hfree : Site.IsFree ⟨e.width, a⟩) :
    Represents d ⟨Memory.set σ.mem a e, st⟩ := by
  show Represents d ⟨_, [] ++ st⟩
  refine h.replace hes hx trivial ?_ ?_
  · intro j _ hj
    rw [hd]
    exact ⟨Memory.set_of_ne fun p hp => (hfree.offStack hp).ne_lowSlot hj,
      Memory.set_of_ne fun p hp => (hfree.offStack hp).ne_highSlot hj⟩
  · intro p hp
    rw [hd, Memory.set_congr (h.mem p hp)]

theorem get_site {s : Site} (h : Represents c σ) (hfree : s.IsFree) :
    Memory.get c.mem s.address s.width = Memory.get σ.mem s.address s.width :=
  Memory.get_congr fun p hp => h.mem p (hfree.offStack hp)

theorem slot_lt {e : Entry} {st : List Entry} (h : Represents c σ) (hst : σ.stack = e :: st) :
    c.x.toNat + 1 < 256 := by
  have hx := h.depth
  rw [hst, List.length_cons] at hx
  omega

theorem second_slot_lt {e f : Entry} {st : List Entry} (h : Represents c σ)
    (hst : σ.stack = e :: f :: st) : c.x.toNat + 2 < 256 := by
  have hx := h.depth
  rw [hst, List.length_cons, List.length_cons] at hx
  omega

theorem top {e : Entry} {st : List Entry} (h : Represents c σ) (hst : σ.stack = e :: st) :
    e.StandsAt c.mem (c.x.toNat + 1) := by
  have hslots := h.slots
  rw [hst] at hslots
  exact hslots.1

theorem second {e f : Entry} {st : List Entry} (h : Represents c σ)
    (hst : σ.stack = e :: f :: st) : f.StandsAt c.mem (c.x.toNat + 2) := by
  have hslots := h.slots
  rw [hst] at hslots
  exact hslots.2.1

end Represents

open Asm

namespace Layout

variable {L : Layout} {c : Cpu} {x y : Byte} {k : Int64}

/-- Addresses by X in a page above the zero page. -/
theorem address?_page {base : Int64} (hb : 256 ≤ base.toInt) (hb' : base.toInt < 0x10000)
    (h0 : 0 ≤ k.toInt) (h1 : k.toInt < 256) :
    L.address? x y (.byX (.address (base + k))) =
      some (.ofNat 16 (base.toInt.toNat + (x.toNat + k.toInt.toNat))) := by
  have hv : (base + k).toInt = base.toInt + k.toInt := by
    rw [Int64.toInt_add]
    exact Int.bmod_eq_of_le (by omega) (by omega)
  obtain ⟨n, hn⟩ := Int.eq_ofNat_of_zero_le h0
  obtain ⟨b, hbn⟩ := Int.eq_ofNat_of_zero_le (show 0 ≤ base.toInt by omega)
  rw [address?, if_neg (by rw [value, hv]; omega), value, hv, Option.some_inj, hn, hbn]
  apply BitVec.eq_of_toNat_eq
  simp only [BitVec.toNat_add, BitVec.toNat_ofInt, BitVec.toNat_setWidth, BitVec.toNat_ofNat,
    Int.toNat_natCast]
  omega

theorem address?_low (h0 : 0 ≤ k.toInt) (h1 : k.toInt < 256) :
    L.address? x y (low k) = some (lowSlot (x.toNat + k.toInt.toNat)) :=
  address?_page (by decide) (by decide) h0 h1

theorem address?_high (h0 : 0 ≤ k.toInt) (h1 : k.toInt < 256) :
    L.address? x y (high k) = some (highSlot (x.toNat + k.toInt.toNat)) :=
  address?_page (by decide) (by decide) h0 h1

theorem address?_top_lo : L.address? x y Cell.top.lo = some (lowSlot (x.toNat + 1)) :=
  address?_low (by decide) (by decide)

theorem address?_top_hi : L.address? x y Cell.top.hi = some (highSlot (x.toNat + 1)) :=
  address?_high (by decide) (by decide)

@[simp] theorem load_low (h0 : 0 ≤ k.toInt) (h1 : k.toInt < 256) (set : Cpu → Byte → Cpu) :
    L.load c (low k) set = some ⟨0, set c (c.mem (lowSlot (c.x.toNat + k.toInt.toNat)))⟩ :=
  load_of_address (address?_low h0 h1) rfl rfl set

@[simp] theorem load_high (h0 : 0 ≤ k.toInt) (h1 : k.toInt < 256) (set : Cpu → Byte → Cpu) :
    L.load c (high k) set = some ⟨0, set c (c.mem (highSlot (c.x.toNat + k.toInt.toNat)))⟩ :=
  load_of_address (address?_high h0 h1) rfl rfl set

@[simp] theorem save_low (h0 : 0 ≤ k.toInt) (h1 : k.toInt < 256) (v : Byte) :
    L.save c (low k) v = some ⟨0, c.store (lowSlot (c.x.toNat + k.toInt.toNat)) v⟩ :=
  save_of_address (address?_low h0 h1) rfl rfl v

@[simp] theorem save_high (h0 : 0 ≤ k.toInt) (h1 : k.toInt < 256) (v : Byte) :
    L.save c (high k) v = some ⟨0, c.store (highSlot (c.x.toNat + k.toInt.toNat)) v⟩ :=
  save_of_address (address?_high h0 h1) rfl rfl v

end Layout

/-- Run on operands in memory, the lines turn `σ` into `σ'`. -/
def Simulates (L : Layout) (ls : List Line) (σ σ' : Operands) : Prop :=
  ∀ c, Represents c σ → ∃ d, L.run ls c = some d ∧ Represents d σ'

end Stack6502
