import Stack6502.Emit.Peephole
import Stack6502.Proofs.BitSets

/-!
# Marked lines

The pass that cancels index steps marks lines by their numbers and leaves the marked ones out. Seen
from the lines it is a recursion: a pair that cancels is dropped and the lines after it go on, any
other line is kept.
-/
namespace Stack6502

/-- The lines without the pairs that cancel, taken from left to right. -/
def cancelLines : List Text → List Text
  | [] => []
  | [line] => [line]
  | first :: second :: rest =>
    if cancels first second then cancelLines rest else first :: cancelLines (second :: rest)

/-- Numbers before those of the lines at hand stay as they are. -/
theorem contains_markPairs_of_lt {i k : Nat} (h : k < i) (lines : List Text) (marks : BitSet) :
    (markPairs i lines marks).contains k = marks.contains k := by
  fun_induction markPairs i lines marks with
  | case1 i first second rest marks hcancels ih =>
    have hi : k ≠ i := Nat.ne_of_lt h
    have hnext : k ≠ i + 1 := by omega
    rw [ih (by omega), BitSet.contains_insert, BitSet.contains_insert, decide_eq_false hi,
      decide_eq_false hnext, Bool.false_or, Bool.false_or]
  | case2 i first second rest marks hcancels ih => exact ih (by omega)
  | case3 => rfl

/-- The lines that are not marked, if none of their numbers was marked before. -/
theorem filter_markPairs (i : Nat) (lines : List Text) {marks : BitSet}
    (hmarks : ∀ k, i ≤ k → marks.contains k = false) :
    (((lines.zipIdx i).filter (!(markPairs i lines marks).contains ·.2)).map (·.1)) =
      cancelLines lines := by
  fun_induction markPairs i lines marks with
  | case1 i first second rest marks hcancels ih =>
    have hnew : ∀ k, i + 2 ≤ k → ((marks.insert i).insert (i + 1)).contains k = false := by
      intro k hk
      have hi : k ≠ i := by omega
      have hnext : k ≠ i + 1 := by omega
      simp [hi, hnext, hmarks k (by omega)]
    -- Both numbers of the pair are marked, and later marks leave them alone.
    have hfirst := contains_markPairs_of_lt (show i < i + 2 by omega) rest
      ((marks.insert i).insert (i + 1))
    have hsecond := contains_markPairs_of_lt (show i + 1 < i + 2 by omega) rest
      ((marks.insert i).insert (i + 1))
    rw [BitSet.contains_insert, BitSet.contains_insert, decide_eq_true rfl, Bool.true_or,
      Bool.or_true] at hfirst
    rw [BitSet.contains_insert, decide_eq_true rfl, Bool.true_or] at hsecond
    rw [cancelLines, if_pos hcancels, ← ih hnew]
    simp [List.zipIdx_cons, hfirst, hsecond]
  | case2 i first second rest marks hcancels ih =>
    have hfirst := contains_markPairs_of_lt (Nat.lt_succ_self i) (second :: rest) marks
    rw [hmarks i (Nat.le_refl i)] at hfirst
    rw [cancelLines, if_neg hcancels, ← ih fun k hk => hmarks k (by omega), List.zipIdx_cons,
      List.filter_cons_of_pos (by simp [hfirst]), List.map_cons]
  | case3 lines i marks hlines =>
    rcases lines with _ | ⟨first, _ | ⟨second, rest⟩⟩
    · rfl
    · simp [cancelLines, hmarks i (Nat.le_refl i)]
    · exact absurd rfl (hlines first second rest)

/-- With no mark at all, no line is left out. -/
theorem cancelLines_of_size_eq_zero {lines : List Text}
    (h : (markPairs 0 lines .empty).size = 0) : cancelLines lines = lines := by
  have hnone : lines.zipIdx.filter (!(markPairs 0 lines .empty).contains ·.2) = lines.zipIdx :=
    List.filter_eq_self.mpr fun l _ => by simp [BitSet.contains_of_size_eq_zero h]
  rw [← filter_markPairs 0 lines fun k _ => BitSet.contains_empty k, hnone]
  exact List.zipIdx_map_fst 0 lines

theorem peephole_eq_flatten (t : Text) : peephole t = (cancelLines t.lines).flatten := by
  unfold peephole
  dsimp only
  split
  next hsize => rw [cancelLines_of_size_eq_zero hsize, Text.flatten_lines]
  next => rw [filter_markPairs 0 t.lines fun k _ => BitSet.contains_empty k]

end Stack6502
