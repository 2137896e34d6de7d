import Stack6502.Proofs.Renaming
import Stack6502.Proofs.SelectionProgress

/-!
# Float literals are collected once

The literals of a program are met block by block, constants before code. Collecting them leaves a
pool that holds each literal once, in the order in which it was first met. A literal that is in the
pool is only looked up from then on.
-/
namespace Stack6502

def Decl.literal? (d : Decl) : Option Double :=
  if d.isConst && d.type = .known .float then d.value.map Value.toDouble else none

def Instr.literal? (x : Instr) : Option Double :=
  x.arg.bind fun v => if x.is .pushFloat || v.isFloat then some v.toDouble else none

def Block.literals (b : Block) : List Double :=
  b.decls.filterMap Decl.literal? ++ b.code.filterMap Instr.literal?

def Program.literals (p : Program) : List Double := p.blocks.flatMap Block.literals

/-! ### The pool -/

structure FloatPool.Holds (pool : FloatPool) (seen : List Double) : Prop where
  values : pool.values = seen.eraseDups
  nodup : pool.values.Nodup
  isNaN : ∀ x ∈ seen, x.isNaN = false

namespace FloatPool

theorem holds_empty : empty.Holds [] := ⟨rfl, List.nodup_nil, by simp⟩

theorem add_of_mem {pool : FloatPool} {x : Double} (hnan : x.isNaN = false)
    (hx : x ∈ pool.values) :
    ∃ k, pool.values[k]? = some x ∧ pool.add x = (some (label k), pool) := by
  obtain ⟨k, hk⟩ := Option.isSome_iff_exists.mp (List.isSome_idxOf?.mpr hx)
  obtain ⟨hlt, hget, -⟩ := List.idxOf?_eq_some_iff.mp hk
  refine ⟨k, List.getElem?_eq_some_iff.mpr ⟨hlt, hget⟩, ?_⟩
  rw [add, hnan, if_neg Bool.false_ne_true, hk]

theorem add_of_notMem {pool : FloatPool} {x : Double} (hnan : x.isNaN = false)
    (hx : x ∉ pool.values) :
    pool.add x = (some (label pool.values.length), ⟨pool.values ++ [x]⟩) := by
  rw [add, hnan, if_neg Bool.false_ne_true, List.idxOf?_eq_none_iff.mpr hx]

theorem isNaN_of_add {pool pool' : FloatPool} {x : Double} {label : Text}
    (h : pool.add x = (some label, pool')) : x.isNaN = false := by
  cases hnan : x.isNaN with
  | false => rfl
  | true => simp [add, hnan] at h

theorem exists_add (pool : FloatPool) {x : Double} (hnan : x.isNaN = false) :
    ∃ label pool', pool.add x = (some label, pool') := by
  by_cases hx : x ∈ pool.values
  · obtain ⟨k, -, hadd⟩ := add_of_mem hnan hx
    exact ⟨_, _, hadd⟩
  · exact ⟨_, _, add_of_notMem hnan hx⟩

theorem Holds.add {pool pool' : FloatPool} {seen : List Double} {x : Double} {label : Text}
    (h : pool.Holds seen) (hadd : pool.add x = (some label, pool')) :
    pool'.Holds (seen ++ [x]) := by
  have hnan := isNaN_of_add hadd
  have hnans : ∀ y ∈ seen ++ [x], y.isNaN = false := by
    simpa [or_imp, forall_and, hnan] using h.isNaN
  have hmem : x ∈ pool.values ↔ x ∈ seen := by rw [h.values, List.mem_eraseDups]
  by_cases hx : x ∈ pool.values
  · obtain ⟨k, -, hfound⟩ := add_of_mem hnan hx
    rw [hfound] at hadd
    cases hadd
    refine ⟨?_, h.nodup, hnans⟩
    rw [List.eraseDups_append, ← h.values]
    simp [List.cons_removeAll, hmem.mp hx]
  · rw [add_of_notMem hnan hx] at hadd
    cases hadd
    have hnodup : (pool.values ++ [x]).Nodup := by
      rw [← List.concat_eq_append]
      exact h.nodup.concat hx
    refine ⟨?_, hnodup, hnans⟩
    rw [List.eraseDups_append, ← h.values]
    simp [List.cons_removeAll, mt hmem.mpr hx, List.eraseDups_cons]

/-- A literal that was met is found, and the pool stays. -/
theorem Holds.add_of_mem {pool : FloatPool} {seen : List Double} {x : Double}
    (h : pool.Holds seen) (hx : x ∈ seen) :
    ∃ k, pool.values[k]? = some x ∧ pool.add x = (some (label k), pool) :=
  FloatPool.add_of_mem (h.isNaN x hx) (by rwa [h.values, List.mem_eraseDups])

end FloatPool

/-! ### Collecting -/

namespace Assembly

/-- The computation meets the literals `xs`. It succeeds if none of them is a NaN, and if it does it
has changed nothing but the pool. -/
structure Collects (m : Assembling Unit) (xs : List Double) : Prop where
  exists_run : (∀ x ∈ xs, x.isNaN = false) → ∀ s, ∃ t, m.run.run s = (.ok ⟨⟩, t)
  of_run : ∀ {s t seen}, s.pool.Holds seen → m.run.run s = (.ok ⟨⟩, t) →
    ∃ pool, t = { s with pool } ∧ pool.Holds (seen ++ xs)

namespace Collects

theorem pure : Collects (Pure.pure ⟨⟩) [] := by
  refine ⟨fun _ s => ⟨s, rfl⟩, fun {s t seen} hs h => ?_⟩
  cases h
  refine ⟨s.pool, rfl, ?_⟩
  rwa [List.append_nil]

theorem bind {m : Assembling Unit} {f : Unit → Assembling Unit} {xs ys : List Double}
    (hm : Collects m xs) (hf : Collects (f ⟨⟩) ys) : Collects (m >>= f) (xs ++ ys) := by
  constructor
  · intro hnan s
    obtain ⟨hxs, hys⟩ := List.forall_mem_append.mp hnan
    obtain ⟨t, ht⟩ := hm.exists_run hxs s
    obtain ⟨u, hu⟩ := hf.exists_run hys t
    exact ⟨u, (run_bind_of_ok ht).trans hu⟩
  · intro s u seen hs h
    obtain ⟨⟨⟩, t, ht, h⟩ := of_run_bind_eq_ok h
    obtain ⟨pool, rfl, hpool⟩ := hm.of_run hs ht
    obtain ⟨pool', rfl, hpool'⟩ := hf.of_run hpool h
    refine ⟨pool', rfl, ?_⟩
    rwa [← List.append_assoc]

theorem forM {α : Type} {f : α → Assembling Unit} {g : α → List Double}
    (hf : ∀ a, Collects (f a) (g a)) (as : List α) : Collects (as.forM f) (as.flatMap g) := by
  induction as with
  | nil => exact pure
  | cons a as ih => exact (hf a).bind ih

/-- A literal that joins the pool, or else a fault. -/
theorem pooled (x : Double) (fault : AssemblyFault) :
    Collects (do if (← Assembly.pooled x).isNone then throw fault) [x] := by
  have hrun (s : Session) : (Assembly.pooled x).run.run s =
      (.ok (s.pool.add x).1, { s with pool := (s.pool.add x).2 }) := rfl
  constructor
  · intro hnan s
    obtain ⟨label, pool, hadd⟩ := s.pool.exists_add (hnan x (List.mem_singleton_self x))
    refine ⟨{ s with pool }, (run_bind_of_ok (hrun s)).trans ?_⟩
    rw [hadd]
    rfl
  · intro s t seen hs h
    obtain ⟨found, u, hfound, h⟩ := of_run_bind_eq_ok h
    cases hadd : s.pool.add x with
    | mk label pool =>
      rw [hrun, hadd] at hfound
      cases hfound
      cases label with
      | none => cases h
      | some label =>
        obtain ⟨-, rfl⟩ := of_pure_eq_ok h
        exact ⟨pool, rfl, hs.add hadd⟩

end Collects

theorem collectDecl_collects (block : Text) (d : Decl) :
    Collects (collectDecl block d) d.literal?.toList := by
  unfold collectDecl Decl.literal?
  cases d.isConst && d.type = .known .float with
  | false => exact .pure
  | true =>
    cases d.value with
    | none => exact .pure
    | some v => exact .pooled v.toDouble _

theorem collectInstr_collects (block : Text) (x : Instr) :
    Collects (collectInstr block x) x.literal?.toList := by
  unfold collectInstr Instr.literal?
  cases x.arg with
  | none => exact .pure
  | some v =>
    dsimp only [Option.bind_some]
    cases x.is .pushFloat || v.isFloat with
    | false => exact .pure
    | true => exact .pooled v.toDouble _

theorem collectFloats_collects (blocks : List Block) :
    Collects (collectFloats blocks) (blocks.flatMap Block.literals) := by
  refine .forM (fun b => ?_) blocks
  rw [Block.literals, List.filterMap_eq_flatMap_toList, List.filterMap_eq_flatMap_toList]
  exact (Collects.forM (collectDecl_collects b.name) b.decls).bind
    (Collects.forM (collectInstr_collects b.name) b.code)

end Assembly

/-! ### Literals under new names -/

theorem Block.Renames.literals {b c : Block} (h : b.Renames c) : c.literals = b.literals := by
  have hcode : c.code.map Instr.literal? = b.code.map Instr.literal? := h.map_code fun x y hxy => by
    rw [Instr.literal?, Instr.literal?, Instr.is, Instr.is, hxy.op, hxy.arg]
  have hfilter : c.code.filterMap Instr.literal? = b.code.filterMap Instr.literal? := by
    rw [← Function.id_comp Instr.literal?, ← List.filterMap_map, ← List.filterMap_map, hcode]
  rw [Block.literals, Block.literals, h.decls, List.filterMap_map, hfilter]
  rfl

theorem Program.Renames.literals {p q : Program} (h : p.Renames q) : q.literals = p.literals := by
  rw [Program.literals, Program.literals, List.flatMap_def, List.flatMap_def,
    h.map_blocks fun b c => Block.Renames.literals]

end Stack6502
