import Mathlib.Data.Nat.Bitwise
import Stack6502.BitSet

/-!
# Members of a bit set

A number is in a set if its bit is set in its word. Words that are not there count as zero, so
membership after an insertion or a subtraction does not depend on how many words the sets have.
The numbers of a set are its members in increasing order, and its size is how many they are.
-/
namespace Stack6502.BitSet

/-! ### Bits of a word -/

theorem toNat_mask (k : Nat) : (mask k).toNat = 2 ^ (k % 64) := by
  have hlt : 2 ^ (k % 64) < 2 ^ 64 := Nat.pow_lt_pow_right (by decide) (Nat.mod_lt k (by decide))
  exact UInt64.toNat_ofNat_of_lt' hlt

theorem and_mask_ne_zero (w : UInt64) (k : Nat) :
    (w &&& mask k != 0) = w.toNat.testBit (k % 64) := by
  have hzero : w &&& mask k = 0 ↔ w.toNat &&& 2 ^ (k % 64) = 0 := by
    rw [← UInt64.toNat_inj, UInt64.toNat_and, toNat_mask]
    rfl
  rw [Nat.and_two_pow] at hzero
  cases hbit : w.toNat.testBit (k % 64) with
  | true =>
    rw [hbit] at hzero
    simp [hzero]
  | false =>
    rw [hbit] at hzero
    simp [hzero]

/-! ### Words of a set -/

theorem contains_eq (s : BitSet) (k : Nat) :
    s.contains k = (s.words.getD (k / 64) 0).toNat.testBit (k % 64) := by
  rw [contains, List.getD_eq_getElem?_getD]
  cases s.words[k / 64]? with
  | none => simp
  | some w => exact and_mask_ne_zero w k

theorem getD_setWord (i j : Nat) (m : UInt64) (ws : List UInt64) :
    (setWord i m ws).getD j 0 = if j = i then ws.getD j 0 ||| m else ws.getD j 0 := by
  fun_induction setWord i m ws generalizing j with
  | case1 => cases j <;> simp
  | case2 => cases j <;> simp
  | case3 m i ih =>
    cases j with
    | zero => simp
    | succ j => simpa using ih j
  | case4 m w ws i ih =>
    cases j with
    | zero => simp
    | succ j => simpa using ih j

@[simp] theorem contains_empty (k : Nat) : empty.contains k = false := rfl

@[simp] theorem contains_insert (s : BitSet) (k j : Nat) :
    (s.insert k).contains j = (decide (j = k) || s.contains j) := by
  rw [contains_eq, contains_eq, insert, getD_setWord]
  by_cases hword : j / 64 = k / 64
  · have heq : k % 64 = j % 64 ↔ j = k := by omega
    rw [if_pos hword, UInt64.toNat_or, Nat.testBit_or, testBit_mask, Bool.or_comm]
    simp only [heq]
  · have hne : j ≠ k := fun h => hword (h ▸ rfl)
    rw [if_neg hword, decide_eq_false hne, Bool.false_or]

theorem getD_clearWords (i : Nat) (ws os : List UInt64) :
    (clearWords ws os).getD i 0 = ws.getD i 0 &&& ~~~os.getD i 0 := by
  fun_induction clearWords ws os generalizing i with
  | case1 w ws o os ih =>
    cases i with
    | zero => simp
    | succ i => simpa using ih i
  | case2 os ws hws =>
    rcases ws with _ | ⟨w, ws⟩
    · simp
    · rcases os with _ | ⟨o, os⟩
      · simp
      · exact (hws w ws o os rfl rfl).elim

@[simp] theorem contains_subtract (s t : BitSet) (k : Nat) :
    (s.subtract t).contains k = (s.contains k && !t.contains k) := by
  rw [contains_eq, contains_eq, contains_eq, subtract, getD_clearWords, testBit_and_not]

/-! ### Words in use

A word is there once a number was put into the set, also if it was taken out again. -/

theorem words_insert_ne_nil (s : BitSet) (k : Nat) : (s.insert k).words ≠ [] := by
  rw [insert]
  generalize k / 64 = i
  cases i <;> cases s.words <;> simp [setWord]

theorem words_subtract_eq_nil_iff {s t : BitSet} : (s.subtract t).words = [] ↔ s.words = [] := by
  rw [subtract]
  cases s.words <;> cases t.words <;> simp [clearWords]

/-! ### The numbers of a word -/

theorem mem_wordKeys {first k : Nat} {w : UInt64} :
    k ∈ wordKeys first w ↔ first ≤ k ∧ w.toNat.testBit (k - first) = true := by
  fun_induction wordKeys first w with
  | case1 => simp
  | case2 w hw ih =>
    rw [List.mem_cons, ih, testBit_clearLowest hw]
    by_cases hlow : k = first + trailingZeros w
    · subst hlow
      simp [testBit_trailingZeros hw]
    · have hbit : first ≤ k → (trailingZeros w != k - first) = true := by
        intro hk
        simp only [bne_iff_ne, ne_eq]
        omega
      simp only [hlow, false_or]
      constructor
      · rintro ⟨hk, h⟩
        rw [hbit hk, Bool.and_true] at h
        exact ⟨hk, h⟩
      · rintro ⟨hk, h⟩
        rw [hbit hk, Bool.and_true]
        exact ⟨hk, h⟩

/-- Taking out the lowest bit first gives the numbers in increasing order. -/
theorem pairwise_wordKeys (first : Nat) (w : UInt64) : (wordKeys first w).Pairwise (· < ·) := by
  fun_induction wordKeys first w with
  | case1 => exact List.Pairwise.nil
  | case2 w hw ih =>
    refine List.pairwise_cons.mpr ⟨fun k hk => ?_, ih⟩
    obtain ⟨hfirst, hbit⟩ := mem_wordKeys.mp hk
    rw [testBit_clearLowest hw, Bool.and_eq_true, bne_iff_ne] at hbit
    have hlow : ¬k - first < trailingZeros w := fun hlt => by
      rw [testBit_of_lt_trailingZeros hlt] at hbit
      exact Bool.noConfusion hbit.1
    omega

theorem lt_of_mem_wordKeys {first k : Nat} {w : UInt64} (h : k ∈ wordKeys first w) :
    k < first + 64 := by
  obtain ⟨hfirst, hbit⟩ := mem_wordKeys.mp h
  by_contra hlarge
  have hle : w.toNat < 2 ^ (k - first) := w.toNat_lt.trans_le
    (Nat.pow_le_pow_right (by decide) (show 64 ≤ k - first by omega))
  rw [Nat.testBit_lt_two_pow hle] at hbit
  exact Bool.noConfusion hbit

/-! ### The numbers of a set -/

theorem mem_keysFrom {first k : Nat} {ws : List UInt64} : k ∈ keysFrom first ws ↔
    first ≤ k ∧ (ws.getD ((k - first) / 64) 0).toNat.testBit ((k - first) % 64) = true := by
  induction ws generalizing first with
  | nil => simp [keysFrom]
  | cons w ws ih =>
    rw [keysFrom, List.mem_append, ih]
    by_cases hk : k < first + 64
    · have hword : (k - first) / 64 = 0 := by omega
      have hbit : (k - first) % 64 = k - first := by omega
      have hlater : ¬first + 64 ≤ k := by omega
      rw [hword, hbit, List.getD_cons_zero, mem_wordKeys]
      simp [hlater]
    · have hword : (k - first) / 64 = (k - (first + 64)) / 64 + 1 := by omega
      have hbit : (k - first) % 64 = (k - (first + 64)) % 64 := by omega
      have hnow : k ∉ wordKeys first w := fun h => hk (lt_of_mem_wordKeys h)
      have hle : first ≤ k := by omega
      have hlater : first + 64 ≤ k := by omega
      rw [hword, hbit, List.getD_cons_succ]
      simp [hnow, hle, hlater]

theorem mem_keys {s : BitSet} {k : Nat} : k ∈ s.keys ↔ s.contains k = true := by
  rw [keys, mem_keysFrom, contains_eq, Nat.sub_zero]
  exact and_iff_right (Nat.zero_le k)

theorem pairwise_keysFrom (first : Nat) (ws : List UInt64) :
    (keysFrom first ws).Pairwise (· < ·) := by
  induction ws generalizing first with
  | nil => exact List.Pairwise.nil
  | cons w ws ih =>
    refine List.pairwise_append.mpr ⟨pairwise_wordKeys first w, ih (first + 64), ?_⟩
    intro j hj k hk
    exact (lt_of_mem_wordKeys hj).trans_le (mem_keysFrom.mp hk).1

theorem pairwise_keys (s : BitSet) : s.keys.Pairwise (· < ·) := pairwise_keysFrom 0 s.words

/-! ### The size of a set -/

theorem mem_wordKeys_iff_mem_filter {first k : Nat} {w : UInt64} : k ∈ wordKeys first w ↔
    k ∈ ((List.range 64).filter fun j => w &&& mask j != 0).map (first + ·) := by
  simp only [List.mem_map, List.mem_filter, List.mem_range, and_mask_ne_zero]
  constructor
  · intro hk
    obtain ⟨hfirst, hbit⟩ := mem_wordKeys.mp hk
    have hlt : k - first < 64 := by have := lt_of_mem_wordKeys hk; omega
    exact ⟨k - first, ⟨hlt, by rwa [Nat.mod_eq_of_lt hlt]⟩, by omega⟩
  · rintro ⟨j, ⟨hlt, hbit⟩, rfl⟩
    rw [Nat.mod_eq_of_lt hlt] at hbit
    exact mem_wordKeys.mpr ⟨Nat.le_add_right first j, by rwa [Nat.add_sub_cancel_left]⟩

/-- The bits counted are those that the enumeration takes out one by one. -/
theorem length_wordKeys (first : Nat) (w : UInt64) : (wordKeys first w).length = wordSize w := by
  have hkeys : (wordKeys first w).Nodup := (pairwise_wordKeys first w).imp Nat.ne_of_lt
  have hnodup : (((List.range 64).filter fun j => w &&& mask j != 0).map (first + ·)).Nodup :=
    List.Pairwise.map _ (fun i j hne h => hne (Nat.add_left_cancel h)) (List.nodup_range.filter _)
  have hperm := (List.perm_ext_iff_of_nodup hkeys hnodup).mpr fun _ => mem_wordKeys_iff_mem_filter
  rw [hperm.length_eq, List.length_map, wordSize, List.countP_eq_length_filter]

theorem length_keys (s : BitSet) : s.keys.length = s.size := by
  have hwords : ∀ (ws : List UInt64) (first : Nat),
      (keysFrom first ws).length = (ws.map wordSize).foldr (· + ·) 0 := by
    intro ws
    induction ws with
    | nil => intro first; rfl
    | cons w ws ih =>
      intro first
      rw [keysFrom, List.length_append, length_wordKeys, ih, List.map_cons, List.foldr_cons]
  exact hwords s.words 0

/-- A set of size zero has no member. -/
theorem contains_of_size_eq_zero {s : BitSet} (h : s.size = 0) (k : Nat) :
    s.contains k = false := by
  have hkeys : s.keys = [] := List.eq_nil_of_length_eq_zero ((length_keys s).trans h)
  rw [← Bool.not_eq_true, ← mem_keys, hkeys]
  exact List.not_mem_nil

end Stack6502.BitSet
