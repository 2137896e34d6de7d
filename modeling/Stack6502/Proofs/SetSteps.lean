import Mathlib.Data.Finset.Card
import Mathlib.Data.Finset.Range
import Stack6502.Proofs.BinaryItems
import Stack6502.Proofs.BitSets

/-!
# Steps on two sets

Two sets start empty and are changed step by step: numbers are put into the first, those of the
second are taken out of it, or the two change places. The same steps on finite sets of integers
need no words and no bits. Whatever is asked of a bit set after any steps, its finite set gives the
answer.
-/
namespace Stack6502

inductive SetStep
  | insert (k : Int64)
  | insertRange (l r : Int64)
  | subtract
  | swap
  deriving DecidableEq, Repr

/-- The integers from `l` up to `r`, which is left out. -/
def interval (l r : ℤ) : Finset ℤ := (Finset.range (r - l).toNat).image fun i => l + Int.ofNat i

theorem mem_interval {l r k : ℤ} : k ∈ interval l r ↔ l ≤ k ∧ k < r := by
  simp only [interval, Finset.mem_image, Finset.mem_range, Int.ofNat_eq_natCast]
  constructor
  · rintro ⟨i, hi, rfl⟩
    omega
  · intro hk
    exact ⟨(k - l).toNat, by omega, by omega⟩

theorem interval_of_le {l r : ℤ} (h : r ≤ l) : interval l r = ∅ := by
  rw [interval, Int.toNat_of_nonpos (by omega), Finset.range_zero, Finset.image_empty]

theorem singleton_union_interval {l r : ℤ} (h : l < r) :
    {l} ∪ interval (l + 1) r = interval l r := by
  ext k
  rw [Finset.mem_union, Finset.mem_singleton, mem_interval, mem_interval]
  omega

def SetStep.touched : SetStep → Finset ℤ
  | .insert k => {k.toInt}
  | .insertRange l r => interval l.toInt r.toInt
  | .subtract | .swap => ∅

structure SetPair (α : Type) where
  first : α
  second : α

def SetPair.both {α : Type} (s : α) : SetPair α := ⟨s, s⟩

/-! ### Steps on bit sets -/

namespace SetPair

def step (p : SetPair BitSet) : SetStep → SetPair BitSet × Bool
  | .insert k => (p.first.insert? k).elim (p, false) fun s => ({ p with first := s }, true)
  | .insertRange l r =>
    ({ p with first := (p.first.insertRange l r).1 }, (p.first.insertRange l r).2)
  | .subtract => ({ p with first := p.first.subtract p.second }, true)
  | .swap => (⟨p.second, p.first⟩, true)

def run (p : SetPair BitSet) (steps : List SetStep) : SetPair BitSet :=
  steps.foldl (fun p act => (p.step act).1) p

end SetPair

/-! ### Steps on finite sets -/

structure Contents where
  members : Finset ℤ
  ever : Finset ℤ

namespace Contents

def empty : Contents := ⟨∅, ∅⟩

def add (c : Contents) (ks : Finset ℤ) : Contents := ⟨c.members ∪ ks, c.ever ∪ ks⟩

theorem add_empty (c : Contents) : c.add ∅ = c := by
  rw [add, Finset.union_empty, Finset.union_empty]

theorem add_add (c : Contents) (ks js : Finset ℤ) : (c.add ks).add js = c.add (ks ∪ js) := by
  simp only [add, Finset.union_assoc]

def remove (c : Contents) (ks : Finset ℤ) : Contents := { c with members := c.members \ ks }

end Contents

namespace SetPair

def apply (c : SetPair Contents) : SetStep → SetPair Contents
  | .insert k => { c with first := c.first.add {k.toInt} }
  | .insertRange l r => { c with first := c.first.add (interval l.toInt r.toInt) }
  | .subtract => { c with first := c.first.remove c.second.members }
  | .swap => ⟨c.second, c.first⟩

/-- A step that touches a negative number changes nothing. -/
def next (c : SetPair Contents) (act : SetStep) : SetPair Contents :=
  if ∃ k ∈ act.touched, k < 0 then c else c.apply act

def contents (c : SetPair Contents) (steps : List SetStep) : SetPair Contents := steps.foldl next c

end SetPair

/-! ### What a bit set stands for -/

namespace BitSet

variable {s t : BitSet} {c : Contents} {k l r : Int64}

structure StandsFor (s : BitSet) (c : Contents) : Prop where
  contains_iff : ∀ k : ℕ, s.contains k = true ↔ (k : ℤ) ∈ c.members
  bounds : ∀ k ∈ c.members, 0 ≤ k ∧ k < 0x8000000000000000
  words_iff : s.words = [] ↔ c.ever = ∅

theorem standsFor_empty : empty.StandsFor .empty where
  contains_iff := by simp [Contents.empty]
  bounds := by simp [Contents.empty]
  words_iff := by simp [Contents.empty, empty]

theorem StandsFor.add {ks : Finset ℤ} (h : s.StandsFor c)
    (hcontains : ∀ k : ℕ, t.contains k = true ↔ (k : ℤ) ∈ ks ∨ s.contains k = true)
    (hbounds : ∀ k ∈ ks, 0 ≤ k ∧ k < 0x8000000000000000)
    (hwords : t.words = [] ↔ ks = ∅ ∧ s.words = []) : t.StandsFor (c.add ks) where
  contains_iff k := by rw [hcontains, h.contains_iff, Contents.add, Finset.mem_union, or_comm]
  bounds k hk := (Finset.mem_union.mp hk).elim (h.bounds k) (hbounds k)
  words_iff := by rw [hwords, h.words_iff, Contents.add, Finset.union_eq_empty, and_comm]

theorem StandsFor.subtract {d : Contents} (h : s.StandsFor c) (ht : t.StandsFor d) :
    (s.subtract t).StandsFor (c.remove d.members) where
  contains_iff k := by
    rw [contains_subtract, Bool.and_eq_true, h.contains_iff, Bool.not_eq_true', ← Bool.not_eq_true,
      ht.contains_iff, Contents.remove, Finset.mem_sdiff]
  bounds k hk := h.bounds k (Finset.mem_sdiff.mp hk).1
  words_iff := words_subtract_eq_nil_iff.trans h.words_iff

/-! ### Keys -/

theorem key?_of_neg (h : k.toInt < 0) : key? k = none :=
  if_pos (Int64.lt_iff_toInt_lt.mpr h)

theorem insert?_of_neg (h : k.toInt < 0) : s.insert? k = none := by
  rw [BitSet.insert?, key?_of_neg h]
  rfl

theorem key?_of_nonneg (h : 0 ≤ k.toInt) : key? k = some k.toInt.toNat :=
  if_neg fun hneg => Int.not_lt.mpr h (Int64.lt_iff_toInt_lt.mp hneg)

theorem StandsFor.insert? (h : s.StandsFor c) (hk : 0 ≤ k.toInt) :
    ∃ t, s.insert? k = some t ∧ t.StandsFor (c.add {k.toInt}) := by
  refine ⟨s.insert k.toInt.toNat, by rw [BitSet.insert?, key?_of_nonneg hk]; rfl, h.add ?_ ?_ ?_⟩
  · intro j
    have hj : j = k.toInt.toNat ↔ (j : ℤ) = k.toInt := by omega
    rw [contains_insert, Bool.or_eq_true, decide_eq_true_iff, Finset.mem_singleton, hj]
  · intro j hj
    rw [Finset.mem_singleton.mp hj]
    exact ⟨hk, k.toInt_lt⟩
  · simp [words_insert_ne_nil]

theorem toInt_add_one (h : k.toInt + 1 < 0x8000000000000000) : (k + 1).toInt = k.toInt + 1 := by
  have hlow := k.le_toInt
  have hone : (1 : Int64).toInt = 1 := rfl
  rw [Int64.toInt_add, hone]
  exact Int.bmod_eq_of_le (by omega) (by omega)

/-- Each key goes in before the next one is tried. -/
theorem StandsFor.insertKeys (h : s.StandsFor c) (hk : 0 ≤ k.toInt) {count : ℕ}
    (hend : k.toInt + count < 0x8000000000000000) : ∃ t, s.insertKeys k count = (t, true) ∧
      t.StandsFor (c.add (interval k.toInt (k.toInt + count))) := by
  induction count generalizing s c k with
  | zero =>
    refine ⟨s, rfl, ?_⟩
    rw [interval_of_le (by omega), Contents.add_empty]
    exact h
  | succ count ih =>
    obtain ⟨t, ht, hstands⟩ := h.insert? hk
    have hnext : (k + 1).toInt = k.toInt + 1 := toInt_add_one (by omega)
    obtain ⟨u, hu, hlast⟩ := ih (k := k + 1) hstands (by omega) (by omega)
    refine ⟨u, by rw [BitSet.insertKeys, ht]; exact hu, ?_⟩
    rw [Contents.add_add, hnext, singleton_union_interval (by omega)] at hlast
    rwa [show k.toInt + (count + 1 : ℕ) = k.toInt + 1 + count by omega]

theorem StandsFor.insertRange (h : s.StandsFor c)
    (hnonneg : ∀ k ∈ interval l.toInt r.toInt, 0 ≤ k) : ∃ t, s.insertRange l r = (t, true) ∧
      t.StandsFor (c.add (interval l.toInt r.toInt)) := by
  by_cases hle : r.toInt ≤ l.toInt
  · have hcount : (r.toInt - l.toInt).toNat = 0 := by omega
    rw [BitSet.insertRange, hcount, interval_of_le hle, Contents.add_empty]
    exact ⟨s, rfl, h⟩
  · have hl : 0 ≤ l.toInt := hnonneg _ (mem_interval.mpr (by omega))
    have hr := r.toInt_lt
    have hend : l.toInt + (r.toInt - l.toInt).toNat = r.toInt := by omega
    have hkeys := h.insertKeys hl (hend.trans_lt hr)
    rwa [hend] at hkeys

/-- The first key of a range is its least one, so a range fails before anything is changed. -/
theorem insertRange_of_neg {j : ℤ} (hj : j ∈ interval l.toInt r.toInt) (hneg : j < 0) :
    s.insertRange l r = (s, false) := by
  have hbounds := mem_interval.mp hj
  obtain ⟨count, hcount⟩ : ∃ count, (r.toInt - l.toInt).toNat = count + 1 :=
    ⟨(r.toInt - l.toInt).toNat - 1, by omega⟩
  rw [BitSet.insertRange, hcount, BitSet.insertKeys, insert?_of_neg (by omega)]

end BitSet

/-! ### Runs -/

namespace SetPair

structure StandsFor (p : SetPair BitSet) (c : SetPair Contents) : Prop where
  first : p.first.StandsFor c.first
  second : p.second.StandsFor c.second

variable {p : SetPair BitSet} {c : SetPair Contents} {act : SetStep}

theorem step_of_neg {k : ℤ} (hk : k ∈ act.touched) (hneg : k < 0) : p.step act = (p, false) := by
  cases act with
  | insert j =>
    rw [Finset.mem_singleton.mp hk] at hneg
    rw [SetPair.step, BitSet.insert?_of_neg hneg, Option.elim_none]
  | insertRange l r => rw [SetPair.step, BitSet.insertRange_of_neg hk hneg]
  | subtract => cases hk
  | swap => cases hk

theorem StandsFor.step (h : p.StandsFor c) (hact : ∀ k ∈ act.touched, 0 ≤ k) :
    ∃ q, p.step act = (q, true) ∧ q.StandsFor (c.apply act) := by
  cases act with
  | insert k =>
    obtain ⟨s, hs, hstands⟩ := h.first.insert? (hact _ (Finset.mem_singleton_self _))
    exact ⟨⟨s, p.second⟩, by rw [SetPair.step, hs, Option.elim_some], hstands, h.second⟩
  | insertRange l r =>
    obtain ⟨s, hs, hstands⟩ := h.first.insertRange hact
    exact ⟨⟨s, p.second⟩, by rw [SetPair.step, hs], hstands, h.second⟩
  | subtract => exact ⟨_, rfl, h.first.subtract h.second, h.second⟩
  | swap => exact ⟨_, rfl, h.second, h.first⟩

/-- All that a step can do. -/
theorem StandsFor.step_cases (h : p.StandsFor c) (act : SetStep) :
    (∃ k ∈ act.touched, k < 0) ∧ p.step act = (p, false) ∧ c.next act = c ∨
      (∀ k ∈ act.touched, 0 ≤ k) ∧ ∃ q, p.step act = (q, true) ∧ q.StandsFor (c.next act) := by
  by_cases hneg : ∃ k ∈ act.touched, k < 0
  · obtain ⟨k, hk, hlt⟩ := id hneg
    exact .inl ⟨hneg, step_of_neg hk hlt, if_pos hneg⟩
  · have hnext : c.next act = c.apply act := if_neg hneg
    push Not at hneg
    rw [hnext]
    exact .inr ⟨hneg, h.step hneg⟩

theorem StandsFor.run (h : p.StandsFor c) (steps : List SetStep) :
    (p.run steps).StandsFor (c.contents steps) := by
  induction steps generalizing p c with
  | nil => exact h
  | cons act steps ih =>
    have hact : (p.step act).1.StandsFor (c.next act) := by
      rcases h.step_cases act with ⟨-, hp, hc⟩ | ⟨-, q, hq, hstands⟩
      · rwa [hp, hc]
      · rwa [hq]
    exact ih hact

end SetPair

/-! ### What can be asked -/

structure BitSet.Answers (s : BitSet) (c : Contents) : Prop where
  contains?_nonneg : ∀ k : Int64, 0 ≤ k.toInt → s.contains? k = some (decide (k.toInt ∈ c.members))
  contains?_neg : ∀ k : Int64, k.toInt < 0 → s.contains? k = none ∧ k.toInt ∉ c.members
  keys_increasing : s.keys.Pairwise (· < ·)
  mem_keys_iff : ∀ k : ℤ, k ∈ s.keys.map Int.ofNat ↔ k ∈ c.members
  size_eq : s.size = c.members.card
  wire_null_iff : s.wire = Cbor.null ↔ c.ever = ∅
  wire_lists : c.ever ≠ ∅ → Cbor.readOpenArray s.wire = some (s.keys, [])

namespace BitSet.StandsFor

variable {s : BitSet} {c : Contents}

theorem mem_map_keys_iff (h : s.StandsFor c) {k : ℤ} :
    k ∈ s.keys.map Int.ofNat ↔ k ∈ c.members := by
  rw [List.mem_map]
  constructor
  · rintro ⟨j, hj, rfl⟩
    exact (h.contains_iff j).mp (mem_keys.mp hj)
  · intro hk
    obtain ⟨j, rfl⟩ := Int.eq_ofNat_of_zero_le (h.bounds k hk).1
    exact ⟨j, mem_keys.mpr ((h.contains_iff j).mpr hk), rfl⟩

theorem size_eq_card (h : s.StandsFor c) : s.size = c.members.card := by
  have hnodup : (s.keys.map Int.ofNat).Nodup :=
    List.Pairwise.map _ (fun i j hlt heq => absurd (Int.ofNat.inj heq) (Nat.ne_of_lt hlt))
      (pairwise_keys s)
  have hset : (s.keys.map Int.ofNat).toFinset = c.members :=
    Finset.ext fun k => List.mem_toFinset.trans h.mem_map_keys_iff
  rw [← hset, List.toFinset_card_of_nodup hnodup, List.length_map, length_keys]

theorem wire_eq_null_iff (h : s.StandsFor c) : s.wire = Cbor.null ↔ c.ever = ∅ := by
  rw [← h.words_iff, wire]
  split_ifs with hempty
  · exact iff_of_true rfl (List.isEmpty_iff.mp hempty)
  · refine iff_of_false (fun heq => ?_) fun hnil => hempty (List.isEmpty_iff.mpr hnil)
    cases heq

theorem readOpenArray_wire (h : s.StandsFor c) (hever : c.ever ≠ ∅) :
    Cbor.readOpenArray s.wire = some (s.keys, []) := by
  have hwords : ¬s.words.isEmpty := fun hempty =>
    hever (h.words_iff.mp (List.isEmpty_iff.mp hempty))
  have hlt : ∀ k ∈ s.keys, k < 0x10000000000000000 := by
    intro k hk
    have := h.bounds k ((h.contains_iff k).mp (mem_keys.mp hk))
    omega
  rw [wire, if_neg hwords]
  simpa using Cbor.readOpenArray_openArray hlt []

theorem answers (h : s.StandsFor c) : s.Answers c where
  contains?_nonneg k hk := by
    have hiff : s.contains k.toInt.toNat = true ↔ k.toInt ∈ c.members := by
      rw [h.contains_iff, Int.toNat_of_nonneg hk]
    rw [contains?, key?_of_nonneg hk, Option.map_some, Option.some_inj, Bool.eq_iff_iff, hiff,
      decide_eq_true_iff]
  contains?_neg k hk := by
    refine ⟨by rw [contains?, key?_of_neg hk]; rfl, fun hmem => ?_⟩
    exact Int.not_lt.mpr (h.bounds _ hmem).1 hk
  keys_increasing := pairwise_keys s
  mem_keys_iff _ := h.mem_map_keys_iff
  size_eq := h.size_eq_card
  wire_null_iff := h.wire_eq_null_iff
  wire_lists := h.readOpenArray_wire

end BitSet.StandsFor

namespace SetPair

def after (steps : List SetStep) : SetPair BitSet := (both .empty).run steps

/-- After any steps both sets give the answers of the finite sets that the same steps make. A step
fails, and leaves both sets as they were, exactly if it touches a negative number. -/
theorem after_answers (steps : List SetStep) :
    (after steps).first.Answers ((both .empty).contents steps).first ∧
    (after steps).second.Answers ((both .empty).contents steps).second ∧
    ∀ act : SetStep,
      ((after steps).step act = (after steps, false) ↔ ∃ k ∈ act.touched, k < 0) ∧
      (((after steps).step act).2 = true ↔ ∀ k ∈ act.touched, 0 ≤ k) := by
  have hempty : (both BitSet.empty).StandsFor (both .empty) :=
    ⟨BitSet.standsFor_empty, BitSet.standsFor_empty⟩
  have hafter : (after steps).StandsFor ((both .empty).contents steps) := hempty.run steps
  refine ⟨hafter.first.answers, hafter.second.answers, fun act => ?_⟩
  rcases hafter.step_cases act with ⟨⟨k, hk, hneg⟩, hfails, -⟩ | ⟨hnonneg, q, hdone, -⟩
  · rw [hfails]
    refine ⟨iff_of_true rfl ⟨k, hk, hneg⟩, iff_of_false Bool.noConfusion fun hall => ?_⟩
    exact Int.not_lt.mpr (hall k hk) hneg
  · rw [hdone]
    refine ⟨iff_of_false (fun heq => ?_) fun ⟨k, hk, hneg⟩ => ?_, iff_of_true rfl hnonneg⟩
    · exact Bool.noConfusion (Prod.mk.inj heq).2
    · exact Int.not_lt.mpr (hnonneg k hk) hneg

end SetPair

end Stack6502
