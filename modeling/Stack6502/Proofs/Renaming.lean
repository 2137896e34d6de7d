import Mathlib.Data.List.Forall2
import Mathlib.Data.List.Nodup
import Stack6502.Program.Naming

/-!
# Renaming keeps all but names

Renaming goes through the declarations and the code of a block with a list of the names taken so
far. It succeeds exactly if no two blocks and no two things of one block end up with one name, and
then every block is the same as before under the new names.
-/
namespace Stack6502

open Naming

def Block.declNames (b : Block) : List Text := b.decls.map fun d => Naming.rename b.short d.name

/-- The names that the labels of a block get, anonymous ones left out. -/
def Block.labelNames (b : Block) : List Text :=
  ((b.code.filter Instr.isLabel).map fun x => Naming.rename b.short x.sym).filter (!isAnonymous ·)

/-- No two blocks share a name, and neither do two declarations or labels of one block. -/
structure Program.IsCollisionFree (p : Program) : Prop where
  shorts : (p.blocks.map (·.short)).Nodup
  names : ∀ b ∈ p.blocks, (b.declNames ++ b.labelNames).Nodup

structure Instr.Renames (short : Text) (x y : Instr) : Prop where
  op : y.op = x.op
  arg : y.arg = x.arg
  arg2 : y.arg2 = x.arg2
  verbatim : x.is .line ∨ x.is .inlineAssembly → y.sym = x.sym ∧ y.sym2 = x.sym2
  label : x.isLabel → y.sym = Naming.rename short x.sym ∧ y.sym2 = x.sym2
  operands : ¬ x.is .line → ¬ x.is .inlineAssembly → ¬ x.isLabel →
    y.sym = Naming.rename short x.sym ∧ y.sym2 = Naming.rename short x.sym2

structure Block.Renames (b c : Block) : Prop where
  name : c.name = b.name
  short : c.short = b.short
  address : c.address = b.address
  decls : c.decls = b.decls.map fun d => { d with name := Naming.rename b.short d.name }
  code : List.Forall₂ (Instr.Renames b.short) b.code c.code

structure Program.Renames (p q : Program) : Prop where
  name : q.name = p.name
  launcher : q.launcher = p.launcher
  load : q.load = p.load
  blocks : List.Forall₂ Block.Renames p.blocks q.blocks

theorem bind_eq_ok_iff {ε α β : Type} {e : Except ε α} {f : α → Except ε β} {b : β} :
    e >>= f = .ok b ↔ ∃ a, e = .ok a ∧ f a = .ok b := by
  cases e with
  | error fault => simp [bind, Except.bind]
  | ok a => simp [bind, Except.bind]

/-! ### Instructions -/

theorem Instr.renames_iff {short : Text} {x y : Instr} :
    x.Renames short y ↔ renameInstr short x = y := by
  obtain ⟨op, arg, arg2, sym, sym2⟩ := x
  obtain ⟨op', arg', arg2', sym', sym2'⟩ := y
  constructor
  · rintro ⟨rfl, rfl, rfl, hverbatim, hlabel, hoperands⟩
    simp only [Instr.isLabel, Instr.is, beq_iff_eq] at hverbatim hlabel hoperands
    unfold renameInstr
    split
    · simp_all
    · simp_all
    · simp_all
    · simp_all
  · intro h
    unfold renameInstr at h
    split at h
    all_goals
      cases h
      constructor
    all_goals simp_all [Instr.isLabel, Instr.is]

def Naming.newLabel? (short : Text) (x : Instr) : Option Text := defined? (renameInstr short x)

theorem Naming.newLabel?_eq (short : Text) (x : Instr) : newLabel? short x =
    if x.isLabel && !isAnonymous (Naming.rename short x.sym) then some (Naming.rename short x.sym)
    else none := by
  have hrenames : x.Renames short (renameInstr short x) := Instr.renames_iff.mpr rfl
  have hlabel : (renameInstr short x).isLabel = x.isLabel := by
    rw [Instr.isLabel, Instr.is, hrenames.op]
    rfl
  rw [newLabel?, defined?, hlabel]
  cases hx : x.isLabel with
  | false => rfl
  | true => rw [(hrenames.label hx).1]

theorem Block.filterMap_newLabel? (b : Block) :
    b.code.filterMap (newLabel? b.short) = b.labelNames := by
  rw [Block.labelNames, ← List.filterMap_eq_map, List.filterMap_filter, List.filter_filterMap]
  apply List.filterMap_congr
  intro x _
  rw [newLabel?_eq]
  cases x.isLabel with
  | false => rfl
  | true => simp [Option.filter, Function.comp]

/-! ### Names taken so far

In each of the three scans the names met, put in front of those taken before, must not repeat. -/

theorem renameDecls_eq_ok_iff {short : Text} {taken : List Text} (htaken : taken.Nodup)
    {ds : List Decl} {r : List Decl × List Text} : renameDecls short taken ds = .ok r ↔
      ((ds.map fun d => Naming.rename short d.name).reverse ++ taken).Nodup ∧
      r = (ds.map fun d => { d with name := Naming.rename short d.name },
        (ds.map fun d => Naming.rename short d.name).reverse ++ taken) := by
  induction ds generalizing taken r with
  | nil => simp [renameDecls, htaken, eq_comm]
  | cons d ds ih =>
    simp only [List.map_cons, List.reverse_cons, List.append_assoc, List.singleton_append]
    by_cases hmem : Naming.rename short d.name ∈ taken
    · have hrepeats : ¬ ((ds.map fun d => Naming.rename short d.name).reverse ++
          Naming.rename short d.name :: taken).Nodup := fun hnodup =>
        (List.nodup_cons.mp hnodup.of_append_right).1 hmem
      simp [renameDecls, hmem, hrepeats]
    · simp only [renameDecls, List.contains_iff_mem, if_neg hmem, bind_eq_ok_iff,
        ih (List.nodup_cons.mpr ⟨hmem, htaken⟩)]
      simp [pure, Except.pure, eq_comm]

theorem renameCode_cons_of_none {short : Text} {x : Instr} (hx : newLabel? short x = none)
    (taken : List Text) (code : List Instr) : renameCode short taken (x :: code) =
      renameCode short taken code >>= fun xs => pure (renameInstr short x :: xs) := by
  rw [newLabel?] at hx
  rw [renameCode, hx]
  rfl

theorem renameCode_cons_of_some {short name : Text} {x : Instr}
    (hx : newLabel? short x = some name) (taken : List Text) (code : List Instr) :
    renameCode short taken (x :: code) =
      if name ∈ taken then .error (.label name)
      else renameCode short (name :: taken) code >>= fun xs =>
        pure (renameInstr short x :: xs) := by
  rw [newLabel?] at hx
  rw [renameCode, hx]
  by_cases hmem : name ∈ taken
  · simp only [List.contains_iff_mem, if_pos hmem]
    rfl
  · simp only [List.contains_iff_mem, if_neg hmem]
    rfl

theorem renameCode_eq_ok_iff {short : Text} {taken : List Text} (htaken : taken.Nodup)
    {code r : List Instr} : renameCode short taken code = .ok r ↔
      ((code.filterMap (newLabel? short)).reverse ++ taken).Nodup ∧
      r = code.map (renameInstr short) := by
  induction code generalizing taken r with
  | nil => simp [renameCode, htaken, eq_comm]
  | cons x code ih =>
    cases hx : newLabel? short x with
    | none =>
      rw [renameCode_cons_of_none hx, bind_eq_ok_iff, List.filterMap_cons_none hx]
      simp [ih htaken, pure, Except.pure, eq_comm]
    | some name =>
      rw [renameCode_cons_of_some hx, List.filterMap_cons_some hx, List.reverse_cons,
        List.append_assoc, List.singleton_append]
      by_cases hmem : name ∈ taken
      · have hrepeats : ¬ ((code.filterMap (newLabel? short)).reverse ++ name :: taken).Nodup :=
          fun hnodup => (List.nodup_cons.mp hnodup.of_append_right).1 hmem
        simp [hmem, hrepeats]
      · rw [if_neg hmem, bind_eq_ok_iff]
        simp [ih (List.nodup_cons.mpr ⟨hmem, htaken⟩), pure, Except.pure, eq_comm]

theorem Block.renames_iff {b c : Block} : b.Renames c ↔ { b with
    decls := b.decls.map fun d => { d with name := Naming.rename b.short d.name }
    code := b.code.map (renameInstr b.short) } = c := by
  have hcode : List.Forall₂ (Instr.Renames b.short) b.code c.code ↔
      b.code.map (renameInstr b.short) = c.code := by
    simp only [← List.forall₂_eq_eq_eq, List.forall₂_map_left_iff, ← Instr.renames_iff]
  constructor
  · rintro ⟨hname, hshort, haddress, hdecls, hforall⟩
    rw [hcode.mp hforall, ← hdecls, ← hname, ← hshort, ← haddress]
  · rintro rfl
    exact ⟨rfl, rfl, rfl, rfl, hcode.mpr rfl⟩

theorem Block.rename_eq_ok_iff {b c : Block} :
    b.rename = .ok c ↔ (b.declNames ++ b.labelNames).Nodup ∧ b.Renames c := by
  have hnames : (b.declNames ++ b.labelNames).Nodup ↔
      (b.labelNames.reverse ++ b.declNames.reverse).Nodup := by
    rw [← List.reverse_append, List.nodup_reverse]
  rw [hnames, Block.renames_iff, Block.rename, bind_eq_ok_iff]
  constructor
  · rintro ⟨_, hdecls, hcode⟩
    obtain ⟨hnodup, rfl⟩ := (renameDecls_eq_ok_iff List.nodup_nil).mp hdecls
    obtain ⟨code, hcode, hc⟩ := bind_eq_ok_iff.mp hcode
    obtain ⟨hnodup', rfl⟩ := (renameCode_eq_ok_iff hnodup).mp hcode
    rw [List.append_nil, Block.filterMap_newLabel?] at hnodup'
    exact ⟨hnodup', Except.ok.inj hc⟩
  · rintro ⟨hnodup, rfl⟩
    have hdecls : (b.declNames.reverse ++ []).Nodup := by
      rw [List.append_nil]
      exact hnodup.of_append_right
    refine ⟨_, (renameDecls_eq_ok_iff List.nodup_nil).mpr ⟨hdecls, rfl⟩, ?_⟩
    refine bind_eq_ok_iff.mpr ⟨_, (renameCode_eq_ok_iff hdecls).mpr ⟨?_, rfl⟩, rfl⟩
    rw [List.append_nil, Block.filterMap_newLabel?]
    exact hnodup

/-! ### Programs -/

theorem renameBlocks_eq_ok_iff {seen : List (Text × Text)} (hseen : (seen.map (·.1)).Nodup)
    {bs cs : List Block} : renameBlocks seen bs = .ok cs ↔
      ((bs.map (·.short)).reverse ++ seen.map (·.1)).Nodup ∧
      List.Forall₂ (fun b c => b.rename = .ok c) bs cs := by
  induction bs generalizing seen cs with
  | nil => simp [renameBlocks, hseen, eq_comm]
  | cons b bs ih =>
    have hlookup : seen.lookup b.short = none ↔ b.short ∉ seen.map (·.1) := by
      simp only [List.lookup_eq_none_iff, bne_iff_ne, List.mem_map, not_exists, not_and]
      exact ⟨fun h entry hentry heq => h entry hentry heq.symm,
        fun h entry hentry heq => h entry hentry heq.symm⟩
    rw [renameBlocks, List.map_cons, List.reverse_cons, List.append_assoc, List.singleton_append]
    cases hfirst : seen.lookup b.short with
    | some first =>
      have hmem : b.short ∈ seen.map (·.1) := by
        by_contra hnot
        rw [hlookup.mpr hnot] at hfirst
        cases hfirst
      have hrepeats : ¬ ((bs.map (·.short)).reverse ++ b.short :: seen.map (·.1)).Nodup :=
        fun hnodup => (List.nodup_cons.mp hnodup.of_append_right).1 hmem
      simp [hrepeats]
    | none =>
      have hnext : (((b.short, b.name) :: seen).map (·.1)).Nodup :=
        List.nodup_cons.mpr ⟨hlookup.mp hfirst, hseen⟩
      cases hb : b.rename with
      | error fault => simp [hb, List.forall₂_cons_left_iff]
      | ok renamed =>
        rw [bind_eq_ok_iff]
        constructor
        · rintro ⟨rest, hrest, ⟨⟩⟩
          obtain ⟨hnodup, hforall⟩ := (ih hnext).mp hrest
          exact ⟨hnodup, .cons hb hforall⟩
        · rintro ⟨hnodup, hforall⟩
          obtain ⟨c, rest, hc, hrest, rfl⟩ := List.forall₂_cons_left_iff.mp hforall
          rw [hb] at hc
          cases hc
          exact ⟨rest, (ih hnext).mpr ⟨hnodup, hrest⟩, rfl⟩

theorem Program.rename_eq_ok_iff {p q : Program} :
    p.rename = .ok q ↔ p.IsCollisionFree ∧ p.Renames q := by
  have hblocks : renameBlocks [] p.blocks = .ok q.blocks ↔
      p.IsCollisionFree ∧ List.Forall₂ Block.Renames p.blocks q.blocks := by
    have hseen : (([] : List (Text × Text)).map (·.1)).Nodup := List.nodup_nil
    rw [renameBlocks_eq_ok_iff hseen, List.map_nil, List.append_nil, List.nodup_reverse]
    simp only [Block.rename_eq_ok_iff, List.forall₂_and_left]
    constructor
    · rintro ⟨hshorts, hnames, hforall⟩
      exact ⟨⟨hshorts, hnames⟩, hforall⟩
    · rintro ⟨⟨hshorts, hnames⟩, hforall⟩
      exact ⟨hshorts, hnames, hforall⟩
  rw [Program.rename, bind_eq_ok_iff]
  constructor
  · rintro ⟨blocks, hrun, ⟨⟩⟩
    obtain ⟨hfree, hforall⟩ := hblocks.mp hrun
    exact ⟨hfree, rfl, rfl, rfl, hforall⟩
  · rintro ⟨hfree, hname, hlauncher, hload, hforall⟩
    refine ⟨q.blocks, hblocks.mpr ⟨hfree, hforall⟩, ?_⟩
    rw [← hname, ← hlauncher, ← hload]
    rfl

/-- The program under its new names, whether or not they collide. -/
theorem Program.exists_renames (p : Program) : ∃ q, p.Renames q := by
  have hblocks : ∃ bs, List.Forall₂ Block.Renames p.blocks bs := by
    refine ⟨p.blocks.map fun b => { b with
      decls := b.decls.map fun d => { d with name := Naming.rename b.short d.name }
      code := b.code.map (renameInstr b.short) }, ?_⟩
    rw [List.forall₂_map_right_iff, List.forall₂_same]
    exact fun b _ => Block.renames_iff.mpr rfl
  obtain ⟨bs, hbs⟩ := hblocks
  exact ⟨{ p with blocks := bs }, rfl, rfl, rfl, hbs⟩

theorem Block.Renames.map_code {b c : Block} (h : b.Renames c) {γ : Type} {f : Instr → γ}
    (hf : ∀ x y, x.Renames b.short y → f y = f x) : c.code.map f = b.code.map f := by
  rw [eq_comm, ← List.forall₂_eq_eq_eq, List.forall₂_map_left_iff, List.forall₂_map_right_iff]
  exact h.code.imp fun x y hxy => (hf x y hxy).symm

theorem Program.Renames.map_blocks {p q : Program} (h : p.Renames q) {γ : Type} {f : Block → γ}
    (hf : ∀ b c, b.Renames c → f c = f b) : q.blocks.map f = p.blocks.map f := by
  rw [eq_comm, ← List.forall₂_eq_eq_eq, List.forall₂_map_left_iff, List.forall₂_map_right_iff]
  exact h.blocks.imp fun b c hbc => (hf b c hbc).symm

/-- What depends on each block and its number in the same way is kept. -/
theorem Program.Renames.flatMap_blocks {p q : Program} (h : p.Renames q) {γ : Type}
    {f : Block → Nat → List γ} (hf : ∀ b c, b.Renames c → f c = f b) :
    (q.blocks.zipIdx.flatMap fun b => f b.1 b.2) = p.blocks.zipIdx.flatMap fun b => f b.1 b.2 := by
  have hflatMap (bs : List Block) : (bs.zipIdx.flatMap fun b => f b.1 b.2) =
      (bs.map f).zipIdx.flatMap fun b => b.1 b.2 := by
    rw [List.zipIdx_map, List.flatMap_map]
    rfl
  rw [hflatMap, hflatMap, h.map_blocks hf]

/-- Renaming succeeds exactly on programs without collisions, and what it yields is the program with
nothing changed but names. -/
theorem Program.rename_succeeds_iff (p : Program) :
    ((∃ q, p.rename = .ok q) ↔ p.IsCollisionFree) ∧
      ∀ q, p.rename = .ok q ↔ p.IsCollisionFree ∧ p.Renames q := by
  obtain ⟨r, hr⟩ := p.exists_renames
  refine ⟨⟨?_, fun hfree => ⟨r, rename_eq_ok_iff.mpr ⟨hfree, hr⟩⟩⟩, fun q => rename_eq_ok_iff⟩
  rintro ⟨q, hq⟩
  exact (rename_eq_ok_iff.mp hq).1

end Stack6502
