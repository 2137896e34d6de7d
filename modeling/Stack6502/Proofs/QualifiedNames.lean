import Mathlib.Data.List.Pairwise
import Stack6502.Proofs.RegisterNames

/-!
# Names across blocks

Other blocks reach what a block defines through the name of the block and a dot. The definition
loses that name in front, the reference keeps it, and the scope bears it as it is, so that the
three fit together only if renaming has nothing to change in the name of the block.
-/
namespace Stack6502

open Naming

structure Naming.IsScopeName (short : Text) : Prop where
  noDot : dot ∉ short
  noDash : Text.byte '-' ∉ short
  noOpening : ¬ Text.ofString "<<<" <:+: short
  noClosing : ¬ Text.ofString ">>>" <:+: short

/-- The scoped names that a block defines, each with its name in the renamed block `c`. -/
def Block.definitions (b c : Block) : List (Text × Text) :=
  (b.decls.zip c.decls).map (fun d => (d.1.name, d.2.name)) ++
    ((b.code.zip c.code).filter (·.1.isLabel)).map fun x => (x.1.sym, x.2.sym)

def Block.references (b c : Block) : List (Text × Text) :=
  (b.code.zip c.code).flatMap fun x => x.1.operandNames.zip x.2.operandNames

/-- The names of declarations and of labels that are not anonymous. -/
def Block.ownNames (b : Block) : List Text :=
  b.decls.map (·.name) ++ b.code.filterMap defined?

def Block.qualifiedNames (b : Block) : List Text := b.ownNames.map fun n => b.short ++ dot :: n

def Program.qualifiedNames (p : Program) : List Text := p.blocks.flatMap Block.qualifiedNames

/-- A name of `b` reads as the way to a name of `c`, a block of which the name goes on. -/
def Block.LeadsInto (b c : Block) : Prop :=
  ∃ m n, c.short = b.short ++ dot :: m ∧ m ++ dot :: n ∈ b.ownNames ∧ n ∈ c.ownNames

/-! ### Both sides of a dot -/

namespace Naming

/-- Taking marks and dashes away leaves a name as it is exactly if there are none. -/
theorem dropDashes_dropMarks_eq_self_iff {name : Text} : dropDashes (dropMarks name) = name ↔
    Text.byte '-' ∉ name ∧ ¬ Text.ofString "<<<" <:+: name ∧ ¬ Text.ofString ">>>" <:+: name := by
  constructor
  · intro h
    -- Bytes of marks would have become fewer.
    have hle (b : UInt8) : name.count b ≤ (dropMarks name).count b := by
      conv_lhs => rw [← h]
      exact List.filter_sublist.count_le b
    have hdash : Text.byte '-' ∉ name := by
      rw [← h, dropDashes]
      simp
    have hopening : ¬ Text.ofString "<<<" <:+: name := by
      intro hinfix
      have hlt : (Text.replaceAll "<<<" "tg_" name).count (Text.byte '<') <
          name.count (Text.byte '<') :=
        Text.count_replaceAll_lt (by decide) (by decide) (by decide) hinfix
      have hclosing : (dropMarks name).count (Text.byte '<') ≤
          (Text.replaceAll "<<<" "tg_" name).count (Text.byte '<') :=
        Text.count_replaceAll_le (by decide) (by decide) _
      have hsame := hle (Text.byte '<')
      omega
    refine ⟨hdash, hopening, fun hinfix => ?_⟩
    have hlt : (Text.replaceAll ">>>" "" name).count (Text.byte '>') <
        name.count (Text.byte '>') :=
      Text.count_replaceAll_lt (by decide) (by decide) (by decide) hinfix
    have hsame := hle (Text.byte '>')
    rw [dropMarks, Text.replaceAll_of_not_infix hopening] at hsame
    omega
  · rintro ⟨hdash, hopening, hclosing⟩
    rw [dropMarks, Text.replaceAll_of_not_infix hopening, Text.replaceAll_of_not_infix hclosing,
      dropDashes, List.filter_eq_self]
    exact fun b hb => bne_iff_ne.mpr fun heq => hdash (heq ▸ hb)

theorem dot_notMem_of_isAnonymous {name : Text} (h : isAnonymous name) : dot ∉ name := by
  simp only [isAnonymous, Bool.and_eq_true, Bool.or_eq_true, List.all_eq_true, beq_iff_eq] at h
  intro hdot
  rcases h.2 with hplus | hminus
  · exact absurd (hplus dot hdot) (by decide)
  · exact absurd (hminus dot hdot) (by decide)

theorem dropDashes_append_dot (s t : Text) :
    dropDashes (s ++ dot :: t) = dropDashes s ++ dot :: dropDashes t := by
  rw [dropDashes, List.filter_append, List.filter_cons_of_pos (by decide)]
  rfl

theorem dot_notMem_dropDashes {name : Text} (h : dot ∉ name) : dot ∉ dropDashes name :=
  fun hdot => h (List.mem_of_mem_filter hdot)

variable {short name : Text}

theorem rename_own {rest : Text} (hspace : Text.space ∉ short ++ dot :: rest) :
    Naming.rename short (short ++ dot :: rest) = if isAnonymous (dropMarks rest) then dropMarks rest
      else dropDashes (flatten (dropMarks rest)) := by
  have hown : Text.after? (short ++ [dot]) (short ++ dot :: rest) = some rest :=
    Text.after?_eq_some_iff.mpr (by simp)
  rw [Naming.rename, if_neg (by simp [hspace]), hown]
  rfl

theorem rename_foreign (hspace : Text.space ∉ name) (hdot : dot ∈ name)
    (hforeign : ¬ short ++ [dot] <+: name) :
    Naming.rename short name = dropDashes (flattenForeign (dropMarks name)) := by
  have hown : Text.after? (short ++ [dot]) name = none := by
    rw [Option.eq_none_iff_forall_not_mem]
    intro rest hrest
    exact hforeign ⟨rest, (Text.after?_eq_some_iff.mp hrest).symm⟩
  have hkept : dot ∈ dropMarks name :=
    Text.mem_replaceAll_of_notMem (Text.mem_replaceAll_of_notMem hdot (by decide) (by decide))
      (by decide) (by decide)
  rw [Naming.rename, if_neg (by simp [hspace, List.ne_nil_of_mem hdot]), hown]
  exact if_neg fun h => dot_notMem_of_isAnonymous h hkept

/-- A name of the block loses all dots. -/
theorem dot_notMem_rename (hspace : Text.space ∉ name) (hown : short ++ [dot] <+: name) :
    dot ∉ Naming.rename short name := by
  obtain ⟨rest, rfl⟩ := hown
  rw [List.append_assoc, List.singleton_append] at hspace ⊢
  rw [rename_own hspace]
  split
  · exact dot_notMem_of_isAnonymous (by assumption)
  · exact dot_notMem_dropDashes (dot_notMem_flatten _)

/-- What `scope` defines as `scope.rest` is reached from the block `short` under the new name
exactly if the name of the scope stays the same and `short` does not take the name for its own. -/
theorem rename_qualified_iff (short : Text) {scope rest : Text}
    (hspace : Text.space ∉ scope ++ dot :: rest)
    (hname : ¬ isAnonymous (Naming.rename scope (scope ++ dot :: rest))) :
    Naming.rename short (scope ++ dot :: rest) =
        scope ++ dot :: Naming.rename scope (scope ++ dot :: rest) ↔
      IsScopeName scope ∧ ¬ short ++ [dot] <+: scope ++ dot :: rest := by
  have hdot : dot ∈ scope ++ dot :: rest := by simp
  by_cases hown : short ++ [dot] <+: scope ++ dot :: rest
  · -- Then the reference has no dot at all.
    refine iff_of_false (fun h => ?_) fun h => h.2 hown
    exact dot_notMem_rename hspace hown (h ▸ by simp)
  · rw [and_iff_left hown, rename_foreign hspace hdot hown, dropMarks_append_dot]
    rw [rename_own hspace] at hname ⊢
    rw [if_neg fun h => hname (by rwa [if_pos h])]
    by_cases hscope : dot ∈ scope
    · -- The reference keeps its first dot only, and the name needs a second one.
      refine iff_of_false (fun h => ?_) fun h => h.noDot hscope
      obtain ⟨s, t, rfl, hs⟩ := List.eq_append_cons_of_mem hscope
      rw [dropMarks_append_dot, List.append_assoc, List.cons_append,
        flattenForeign_append (dot_notMem_dropMarks hs), dropDashes_append_dot, List.append_assoc,
        List.cons_append] at h
      have hcut := congrArg (Text.cut dot) h
      rw [Text.cut_append (dot_notMem_dropDashes (dot_notMem_dropMarks hs)),
        Text.cut_append hs] at hcut
      have hnone :=
        dot_notMem_dropDashes (dot_notMem_flatten (dropMarks t ++ dot :: dropMarks rest))
      rw [Option.some.inj (Prod.mk.inj hcut).2] at hnone
      simp at hnone
    · rw [flattenForeign_append (dot_notMem_dropMarks hscope), dropDashes_append_dot,
        List.append_cancel_right_eq, dropDashes_dropMarks_eq_self_iff]
      exact ⟨fun ⟨hdash, hopening, hclosing⟩ => ⟨hscope, hdash, hopening, hclosing⟩,
        fun h => ⟨h.noDash, h.noOpening, h.noClosing⟩⟩

/-- Names of scopes that stay the same are told apart by the first dot. -/
theorem IsScopeName.not_prefix {scope : Text} (hscope : IsScopeName scope)
    (hshort : IsScopeName short) (hne : short ≠ scope) (rest : Text) :
    ¬ short ++ [dot] <+: scope ++ dot :: rest := by
  rintro ⟨other, hother⟩
  have hcut := congrArg (Text.cut dot) hother
  rw [List.append_assoc, List.singleton_append, Text.cut_append hshort.noDot,
    Text.cut_append hscope.noDot] at hcut
  exact hne (Prod.mk.inj hcut).1

end Naming

/-! ### References -/

theorem Block.Renames.of_mem_definitions {b c : Block} (h : b.Renames c) {n d : Text}
    (hmem : (n, d) ∈ b.definitions c) : d = Naming.rename b.short n := by
  have hdecls :
      List.Forall₂ (fun d e => e.name = Naming.rename b.short d.name) b.decls c.decls := by
    rw [h.decls, List.forall₂_map_right_iff, List.forall₂_same]
    exact fun _ _ => rfl
  rcases List.mem_append.mp hmem with hmem | hmem
  · obtain ⟨d, hd, ⟨⟩⟩ := List.mem_map.mp hmem
    exact List.forall₂_zip hdecls hd
  · obtain ⟨x, hx, ⟨⟩⟩ := List.mem_map.mp hmem
    obtain ⟨hzip, hlabel⟩ := List.mem_filter.mp hx
    exact ((List.forall₂_zip h.code hzip).label hlabel).1

theorem Block.Renames.of_mem_references {b c : Block} (h : b.Renames c) {n t : Text}
    (hmem : (n, t) ∈ b.references c) : t = Naming.rename b.short n := by
  obtain ⟨x, hx, hzip⟩ := List.mem_flatMap.mp hmem
  exact List.forall₂_zip (List.forall₂_zip h.code hx).operandNames hzip

namespace Crossing

def library (name : Text) : Block where
  name
  short := name
  address := 0
  decls := [{ name := name ++ ".x.y", type := .known .ubyte, value := none, heap := 0,
              isConst := false }]
  code := [{ op := .known .label, sym := name ++ ".go" }, { op := .known .ret }]

def user (counter label : Text) : Block where
  name := "main"
  short := "main"
  address := 0
  decls := []
  code := [{ op := .known .incVarUB, sym := counter }, { op := .known .call, sym := label }]

def program (name : Text) : Program where
  name := "t"
  launcher := .known .raw
  load := 0
  blocks := [library name, user (name ++ ".x.y") (name ++ ".go")]

def renamedLibrary (name : Text) : Block where
  name
  short := name
  address := 0
  decls := [{ name := "x_y", type := .known .ubyte, value := none, heap := 0, isConst := false }]
  code := [{ op := .known .label, sym := "go" }, { op := .known .ret }]

end Crossing

/-- In a program accepted, a name that a block defines is reached from a block that uses it exactly
if the name of the one stays the same before a dot and the other does not take the name for one of
its own. So blocks whose names stay the same always reach each other. -/
theorem Program.references_resolve_iff {p q : Program} (h : p.rename = .ok q) {b b' c c' : Block}
    (hb : (b, b') ∈ p.blocks.zip q.blocks) (hc : (c, c') ∈ p.blocks.zip q.blocks)
    {n r d t : Text} (hn : n = b.short ++ dot :: r) (hspace : Text.space ∉ n)
    (hdefined : (n, d) ∈ b.definitions b') (hname : ¬ isAnonymous d)
    (hused : (n, t) ∈ c.references c') :
    b.short ++ Text.ofString "\t.proc\n\n" <:+ Assembly.blockStart b' ∧
      (t = b.short ++ dot :: d ↔ IsScopeName b.short ∧ ¬ c.short ++ [dot] <+: n) ∧
      (c.short ≠ b.short → IsScopeName b.short → IsScopeName c.short →
        t = b.short ++ dot :: d) := by
  obtain ⟨-, hrenames⟩ := Program.rename_eq_ok_iff.mp h
  have hbb := List.forall₂_zip hrenames.blocks hb
  obtain rfl := hbb.of_mem_definitions hdefined
  obtain rfl := (List.forall₂_zip hrenames.blocks hc).of_mem_references hused
  subst hn
  have hresolves := rename_qualified_iff c.short hspace hname
  refine ⟨?_, hresolves, fun hne hscope hshort => ?_⟩
  · rw [← hbb.short]
    exact ⟨_, (List.append_assoc ..).symm⟩
  · exact hresolves.mpr ⟨hscope, hscope.not_prefix hshort hne r⟩

open Crossing in
theorem Program.references_resolve_iff_library :
    (program "lib").rename =
      .ok { program "lib" with blocks := [renamedLibrary "lib", user "lib.x_y" "lib.go"] } ∧
    (Text.ofString "lib.x.y", Text.ofString "x_y") ∈
      (library "lib").definitions (renamedLibrary "lib") ∧
    (Text.ofString "lib.x.y", Text.ofString "lib.x_y") ∈
      (user "lib.x.y" "lib.go").references (user "lib.x_y" "lib.go") ∧
    Text.ofString "lib.x_y" = (library "lib").short ++ dot :: Text.ofString "x_y" := by
  have hrename : (program "lib").rename =
      .ok { program "lib" with blocks := [renamedLibrary "lib", user "lib.x_y" "lib.go"] } := by
    decide
  have hdefined : (Text.ofString "lib.x.y", Text.ofString "x_y") ∈
      (library "lib").definitions (renamedLibrary "lib") := by decide
  have hused : (Text.ofString "lib.x.y", Text.ofString "lib.x_y") ∈
      (user "lib.x.y" "lib.go").references (user "lib.x_y" "lib.go") := by decide
  have hn : Text.ofString "lib.x.y" = (library "lib").short ++ dot :: Text.ofString "x.y" := by
    decide
  obtain ⟨-, -, hresolves⟩ := Program.references_resolve_iff hrename (.head _) (.tail _ (.head _))
    hn (by decide) hdefined (by decide) hused
  have hscope : IsScopeName (library "lib").short :=
    ⟨by decide, by decide, by decide, by decide⟩
  have hshort : IsScopeName (user "lib.x.y" "lib.go").short :=
    ⟨by decide, by decide, by decide, by decide⟩
  exact ⟨hrename, hdefined, hused, hresolves (by decide) hscope hshort⟩

open Crossing in
/-- A block with a dot in its name is not reached: the scope is `lib.util`, the reference looks into
`lib`. -/
theorem Program.rename_reference_elsewhere :
    (program "lib.util").rename = .ok { program "lib.util" with
      blocks := [renamedLibrary "lib.util", user "lib.util_x_y" "lib.util_go"] } ∧
    (Text.ofString "lib.util.x.y", Text.ofString "x_y") ∈
      (library "lib.util").definitions (renamedLibrary "lib.util") ∧
    (Text.ofString "lib.util.x.y", Text.ofString "lib.util_x_y") ∈
      (user "lib.util.x.y" "lib.util.go").references (user "lib.util_x_y" "lib.util_go") ∧
    Text.ofString "lib.util_x_y" ≠ (library "lib.util").short ++ dot :: Text.ofString "x_y" := by
  decide

/-! ### Qualified names -/

theorem Block.Renames.ownNames {b c : Block} (h : b.Renames c) :
    c.ownNames = b.declNames ++ b.labelNames := by
  have hdecls : c.decls.map (·.name) = b.declNames := by
    rw [h.decls, List.map_map]
    rfl
  have hcode : c.code = b.code.map (renameInstr b.short) := by
    rw [← Block.renames_iff.mp h]
  rw [Block.ownNames, hdecls, hcode, List.filterMap_map, ← Block.filterMap_newLabel?]
  rfl

/-- Qualified names meet only where the name of one block goes on in the name of the other. -/
theorem append_dot_eq_append_dot_iff {s t m n : Text} (hne : s ≠ t) :
    s ++ dot :: m = t ++ dot :: n ↔
      (∃ r, t = s ++ dot :: r ∧ m = r ++ dot :: n) ∨
        ∃ r, s = t ++ dot :: r ∧ n = r ++ dot :: m := by
  constructor
  · intro h
    rcases List.append_eq_append_iff.mp h with ⟨u, rfl, hu⟩ | ⟨u, rfl, hu⟩
    · cases u with
      | nil => simp at hne
      | cons b u =>
        obtain ⟨rfl, rfl⟩ := List.cons.inj hu
        exact .inl ⟨u, rfl, rfl⟩
    · cases u with
      | nil => simp at hne
      | cons b u =>
        obtain ⟨rfl, rfl⟩ := List.cons.inj hu
        exact .inr ⟨u, rfl, rfl⟩
  · rintro (⟨r, rfl, rfl⟩ | ⟨r, rfl, rfl⟩)
    · simp
    · simp

theorem Block.disjoint_qualifiedNames_iff {b c : Block} (hne : b.short ≠ c.short) :
    b.qualifiedNames.Disjoint c.qualifiedNames ↔ ¬ b.LeadsInto c ∧ ¬ c.LeadsInto b := by
  constructor
  · intro hdisjoint
    constructor
    · rintro ⟨m, n, hshort, hm, hn⟩
      refine hdisjoint (List.mem_map_of_mem hm) (List.mem_map.mpr ⟨n, hn, ?_⟩)
      exact ((append_dot_eq_append_dot_iff hne).mpr (.inl ⟨m, hshort, rfl⟩)).symm
    · rintro ⟨m, n, hshort, hm, hn⟩
      refine hdisjoint (List.mem_map_of_mem hn) (List.mem_map.mpr ⟨_, hm, ?_⟩)
      exact ((append_dot_eq_append_dot_iff hne).mpr (.inr ⟨m, hshort, rfl⟩)).symm
  · rintro ⟨hbc, hcb⟩ name hb hc
    obtain ⟨m, hm, rfl⟩ := List.mem_map.mp hb
    obtain ⟨n, hn, heq⟩ := List.mem_map.mp hc
    rcases (append_dot_eq_append_dot_iff hne).mp heq.symm with ⟨r, hshort, rfl⟩ | ⟨r, hshort, rfl⟩
    · exact hbc ⟨r, n, hshort, hm, hn⟩
    · exact hcb ⟨r, m, hshort, hn, hm⟩

theorem Program.Renames.nodup_qualifiedNames {p q : Program} (h : p.Renames q)
    (hfree : p.IsCollisionFree) : ∀ c ∈ q.blocks, c.qualifiedNames.Nodup := by
  have hown : p.blocks.map (fun b => b.declNames ++ b.labelNames) =
      q.blocks.map Block.ownNames := by
    rw [← List.forall₂_eq_eq_eq, List.forall₂_map_left_iff, List.forall₂_map_right_iff]
    exact h.blocks.imp fun b c hbc => hbc.ownNames.symm
  intro c hc
  have hmem : c.ownNames ∈ p.blocks.map fun b => b.declNames ++ b.labelNames :=
    hown ▸ List.mem_map_of_mem hc
  obtain ⟨b, hb, hnames⟩ := List.mem_map.mp hmem
  refine List.Nodup.map (fun m n hmn => ?_) (hnames ▸ hfree.names b hb)
  simpa using hmn

/-- In a program accepted, the qualified names differ exactly if no name of a block leads into
another block. -/
theorem Program.qualifiedNames_nodup_iff {p q : Program} (h : p.rename = .ok q) :
    q.qualifiedNames.Nodup ↔ ∀ b ∈ q.blocks, ∀ c ∈ q.blocks, ¬ b.LeadsInto c := by
  obtain ⟨hfree, hrenames⟩ := Program.rename_eq_ok_iff.mp h
  have hshorts : (q.blocks.map (·.short)).Nodup := by
    rw [hrenames.map_blocks fun b c hbc => hbc.short]
    exact hfree.shorts
  rw [Program.qualifiedNames, List.nodup_flatMap,
    and_iff_right (hrenames.nodup_qualifiedNames hfree)]
  constructor
  · intro hpairs b hb c hc hleads
    have hne : b.short ≠ c.short := by
      obtain ⟨m, n, hshort, -⟩ := hleads
      rw [hshort]
      simp
    have hsymm : Std.Symm (Function.onFun List.Disjoint Block.qualifiedNames) :=
      ⟨fun _ _ hdisjoint _ hb hc => hdisjoint hc hb⟩
    have hdisjoint := hpairs.forall hb hc fun heq => hne (congrArg Block.short heq)
    exact ((Block.disjoint_qualifiedNames_iff hne).mp hdisjoint).1 hleads
  · intro hleads
    refine (List.pairwise_map.mp hshorts).imp_of_mem fun hb hc hne => ?_
    exact (Block.disjoint_qualifiedNames_iff hne).mpr ⟨hleads _ hb _ hc, hleads _ hc _ hb⟩

namespace Nesting

def block (short label : Text) : Block where
  name := short
  short
  address := 0
  decls := []
  code := [{ op := .known .label, sym := label }]

/-- The name of the second block goes on from that of the first. -/
def program (first second : Text) : Program where
  name := "t"
  launcher := .known .raw
  load := 0
  blocks := [block "a" first, block "a.b" second]

end Nesting

open Nesting in
theorem Program.qualifiedNames_nodup_iff_nesting :
    (program "b.x" "a.b.y").rename = .ok (program "b.x" "y") ∧
    (program "b.x" "y").qualifiedNames =
      [Text.ofString "a.b.x", Text.ofString "a.b.y"] ∧
    ¬ (block "a" "b.x").LeadsInto (block "a.b" "y") := by
  have hrename : (program "b.x" "a.b.y").rename = .ok (program "b.x" "y") := by decide
  have hleads := (Program.qualifiedNames_nodup_iff hrename).mp (by decide)
  exact ⟨hrename, by decide, hleads _ (.head _) _ (.tail _ (.head _))⟩

open Nesting in
/-- Two labels of different blocks share the qualified name `a.b.x`. -/
theorem Program.rename_shared_qualifiedName :
    (program "b.x" "a.b.x").rename = .ok (program "b.x" "x") ∧
    (program "b.x" "x").qualifiedNames = [Text.ofString "a.b.x", Text.ofString "a.b.x"] ∧
    ¬ (program "b.x" "x").qualifiedNames.Nodup := by
  decide

end Stack6502
