import Stack6502.Proofs.NameText
import Stack6502.Proofs.Renaming
import Stack6502.Proofs.SelectionProgress

/-!
# Names that turn into registers

Whether an operand is a register is told by its spelling, and only after renaming. Renaming takes
away the name of the block in front, closing marks and dashes, so that a variable may end up with
the name of a register. Registers themselves keep their names.
-/
namespace Stack6502

open Naming

def Home.registerNames : List Text := ["A", "X", "Y", "AX", "AY", "XY"]

def Naming.dropDashes (name : Text) : Text := name.filter (· != Text.byte '-')

/-- A name without the name of its block in front, closing marks and dashes. -/
def Naming.bare (short name : Text) : Text :=
  dropDashes (Text.replaceAll ">>>" "" ((Text.after? (short ++ [dot]) name).getD name))

theorem Home.ofName_eq_var_iff {name : Text} : Home.ofName name = .var ↔ name ∉ registerNames := by
  unfold Home.ofName registerNames
  split_ifs
  all_goals simp_all

/-- Names that are the same register or none have the same home. -/
theorem Home.ofName_congr {s t : Text} (h : ∀ r ∈ registerNames, s = r ↔ t = r) :
    Home.ofName s = Home.ofName t := by
  simp only [registerNames, List.forall_mem_cons] at h
  obtain ⟨ha, hx, hy, hax, hay, hxy, -⟩ := h
  simp only [Home.ofName, ha, hx, hy, hax, hay, hxy]

section Register

variable {r : Text} (hr : r ∈ Home.registerNames)
include hr

/-- The name of a register is made of its own letters only. -/
theorem ne_register_of_mem {b : UInt8} {t : Text} (ht : b ∈ t)
    (hb : b ∈ Text.ofString " .-_<>+t") : t ≠ r := by
  have hletters : ∀ r ∈ Home.registerNames, r.any (Text.ofString " .-_<>+t").contains = false := by
    decide
  rintro rfl
  exact List.any_eq_false.mp (hletters t hr) b ht (List.contains_iff_mem.mpr hb)

theorem register_ne_nil : r ≠ [] := by
  have hall : ∀ r ∈ Home.registerNames, r ≠ [] := by decide
  exact hall r hr

theorem dropDashes_ne_register_of_mem {b : UInt8} {t : Text} (ht : b ∈ t)
    (hb : b ∈ Text.ofString " ._<>+t") : dropDashes t ≠ r := by
  have hkept : (Text.ofString " ._<>+t").all fun b =>
      b != Text.byte '-' && (Text.ofString " .-_<>+t").contains b := by decide
  obtain ⟨hdash, hb⟩ := Bool.and_eq_true_iff.mp (List.all_eq_true.mp hkept b hb)
  exact ne_register_of_mem hr (List.mem_filter.mpr ⟨ht, hdash⟩) (List.contains_iff_mem.mp hb)

theorem dropMarks_eq_register_iff {t : Text} :
    dropDashes (dropMarks t) = r ↔ dropDashes (Text.replaceAll ">>>" "" t) = r := by
  by_cases hmark : Text.byte '<' ∈ t
  · have hkept : Text.byte '<' ∈ Text.replaceAll ">>>" "" t :=
      Text.mem_replaceAll_of_notMem hmark (by decide) (by decide)
    refine iff_of_false ?_ (dropDashes_ne_register_of_mem hr hkept (by decide))
    rcases mem_dropMarks_of_mem hmark with hmem | hmem
    all_goals exact dropDashes_ne_register_of_mem hr hmem (by decide)
  · rw [dropMarks_of_notMem hmark]

theorem flatten_eq_register_iff {t : Text} (own : Bool) :
    dropDashes (if own then flatten t else flattenForeign t) = r ↔ dropDashes t = r := by
  by_cases hdot : dot ∈ t
  · refine iff_of_false ?_ (dropDashes_ne_register_of_mem hr hdot (by decide))
    cases own with
    | true => exact dropDashes_ne_register_of_mem hr (mem_flatten_of_mem hdot) (by decide)
    | false => exact dropDashes_ne_register_of_mem hr (mem_flattenForeign_of_mem hdot) (by decide)
  · rw [flatten_of_notMem hdot, flattenForeign_of_notMem hdot, ite_self]

theorem ne_register_of_isAnonymous {t : Text} (h : isAnonymous t) : t ≠ r ∧ dropDashes t ≠ r := by
  simp only [isAnonymous, Bool.and_eq_true, Bool.or_eq_true, List.all_eq_true, beq_iff_eq,
    Bool.not_eq_true', List.isEmpty_eq_false_iff_exists_mem] at h
  obtain ⟨⟨b, hb⟩, hplus | hminus⟩ := h
  · have hmem : Text.byte '+' ∈ t := hplus b hb ▸ hb
    exact ⟨ne_register_of_mem hr hmem (by decide),
      dropDashes_ne_register_of_mem hr hmem (by decide)⟩
  · have hmem : Text.byte '-' ∈ t := hminus b hb ▸ hb
    have hnil : dropDashes t = [] := by
      simpa [dropDashes, List.filter_eq_nil_iff] using hminus
    exact ⟨ne_register_of_mem hr hmem (by decide), hnil ▸ (register_ne_nil hr).symm⟩

/-- A name becomes that of a register exactly if it spells the register once stripped. -/
theorem Naming.rename_eq_register_iff (short name : Text) :
    Naming.rename short name = r ↔ Text.space ∉ name ∧ bare short name = r := by
  by_cases hspace : Text.space ∈ name
  · rw [Naming.rename, if_pos (by simp [hspace])]
    exact iff_of_false (ne_register_of_mem hr hspace (by decide)) fun h => h.1 hspace
  rw [and_iff_right hspace, bare]
  cases name with
  | nil =>
    have hnil : (Text.after? (short ++ [dot]) []).getD [] = [] := by cases short <;> rfl
    rw [hnil]
    exact iff_of_false (register_ne_nil hr).symm (register_ne_nil hr).symm
  | cons b name =>
    rw [← dropMarks_eq_register_iff hr, Naming.rename, if_neg (by simpa using hspace)]
    dsimp only
    split
    · have hne := ne_register_of_isAnonymous hr (by assumption)
      exact iff_of_false hne.1 hne.2
    · exact flatten_eq_register_iff hr _

/-- Registers keep their names. -/
theorem Naming.rename_register (short : Text) : Naming.rename short r = r := by
  have hspace : Text.space ∉ r := fun h => ne_register_of_mem hr h (by decide) rfl
  have hdot : dot ∉ r := fun h => ne_register_of_mem hr h (by decide) rfl
  have hmark : Text.byte '>' ∉ r := fun h => ne_register_of_mem hr h (by decide) rfl
  have hdash : Text.byte '-' ∉ r := fun h => ne_register_of_mem hr h (by decide) rfl
  have hown : Text.after? (short ++ [dot]) r = none := by
    rw [Option.eq_none_iff_forall_not_mem]
    intro rest hrest
    apply hdot
    rw [Text.after?_eq_some_iff.mp hrest]
    simp
  rw [rename_eq_register_iff hr, bare, hown, Option.getD_none,
    Text.replaceAll_of_notMem (by decide) hmark, dropDashes, List.filter_eq_self]
  exact ⟨hspace, fun b hb => bne_iff_ne.mpr fun heq => hdash (heq ▸ hb)⟩

end Register

/-! ### Operands of a program -/

/-- The operand names of an instruction. Labels, line marks and verbatim text have none. -/
def Instr.operandNames (x : Instr) : List Text :=
  if x.is .line || x.is .inlineAssembly || x.isLabel then [] else [x.sym, x.sym2]

structure Naming.Rehomes (short s t : Text) : Prop where
  register : s ∈ Home.registerNames → t = s
  stripped : Text.space ∉ s → Home.ofName t = Home.ofName (bare short s)
  var : s ∉ Home.registerNames →
    (Home.ofName t = Home.ofName s ↔ Text.space ∈ s ∨ bare short s ∉ Home.registerNames)

theorem Naming.rehomes_rename (short s : Text) : Rehomes short s (Naming.rename short s) := by
  have hstripped (hspace : Text.space ∉ s) :
      Home.ofName (Naming.rename short s) = Home.ofName (bare short s) :=
    Home.ofName_congr fun r hr => by rw [rename_eq_register_iff hr, and_iff_right hspace]
  refine ⟨fun hs => rename_register hs short, hstripped, fun hs => ?_⟩
  by_cases hspace : Text.space ∈ s
  · rw [Naming.rename, if_pos (by simp [hspace])]
    exact iff_of_true rfl (.inl hspace)
  · rw [hstripped hspace, Home.ofName_eq_var_iff.mpr hs, Home.ofName_eq_var_iff]
    exact (or_iff_right hspace).symm

theorem Instr.Renames.operandNames {short : Text} {x y : Instr} (h : x.Renames short y) :
    List.Forall₂ (fun s t => t = Naming.rename short s) x.operandNames y.operandNames := by
  have hsame : (y.is .line || y.is .inlineAssembly || y.isLabel) =
      (x.is .line || x.is .inlineAssembly || x.isLabel) := by
    simp only [Instr.isLabel, Instr.is, h.op]
  rw [Instr.operandNames, Instr.operandNames, hsame]
  by_cases hnone : x.is .line || x.is .inlineAssembly || x.isLabel
  · rw [if_pos hnone, if_pos hnone]
    exact .nil
  · rw [if_neg hnone, if_neg hnone]
    simp only [Bool.or_eq_true, not_or] at hnone
    obtain ⟨hsym, hsym2⟩ := h.operands hnone.1.1 hnone.1.2 hnone.2
    exact .cons hsym (.cons hsym2 .nil)

theorem Instr.Renames.rehomes {short : Text} {x y : Instr} (h : x.Renames short y) :
    List.Forall₂ (Rehomes short) x.operandNames y.operandNames :=
  h.operandNames.imp fun s _ ht => ht ▸ rehomes_rename short s

namespace Shadowing

def block (name : Text) : Block where
  name := "main"
  short := "main"
  address := 0
  decls := [{ name, type := .known .ubyte, value := none, heap := 0, isConst := false }]
  code := [{ op := .known .pushVarByte, sym := name }, { op := .known .pushVarWord, sym := "AY" }]

def program (name : Text) : Program where
  name := "t"
  launcher := .known .raw
  load := 0
  blocks := [block name]

end Shadowing

/-- In a program accepted, registers stay registers, and any other operand keeps its home exactly
if it holds a blank or does not come down to the name of a register. -/
theorem Program.operands_rehome {p q : Program} (h : p.rename = .ok q) :
    List.Forall₂ (fun b c => List.Forall₂ (fun x y =>
      List.Forall₂ (Rehomes b.short) x.operandNames y.operandNames) b.code c.code)
      p.blocks q.blocks := by
  obtain ⟨-, hrenames⟩ := Program.rename_eq_ok_iff.mp h
  exact hrenames.blocks.imp fun b c hb => hb.code.imp fun x y hx => hx.rehomes

open Shadowing in
theorem Program.operands_rehome_count : (program "main.count").rename = .ok (program "count") ∧
    Home.ofName "count" = Home.ofName "main.count" ∧ Home.ofName "AY" = .pair .ay := by
  have hrename : (program "main.count").rename = .ok (program "count") := by decide
  have hblocks := Program.operands_rehome hrename
  obtain ⟨hcode, -⟩ := List.forall₂_cons.mp hblocks
  obtain ⟨hnames, -⟩ := List.forall₂_cons.mp hcode
  obtain ⟨hname, -⟩ := List.forall₂_cons.mp hnames
  exact ⟨hrename, (hname.var (by decide)).mpr (.inr (by decide)), rfl⟩

open Shadowing Asm in
/-- The variable `A` of a block is read as the register. -/
theorem Program.rename_variable_to_register :
    (program "main.A").rename = .ok (program "A") ∧
    Home.ofName "main.A" = .var ∧ Home.ofName "A" = .reg .a ∧
    ∃ t, (Assembly.codeText .standard (block "A")).run.run .start =
      (.ok "\tsta  $ce00,x\n\tdex\n\tsta  $ce00,x\n\tpha\n\ttya\n\tsta  $cf00,x\n\tpla\n\tdex\n", t) := by
  have htakes : Catalog.standard.Takes (some (block "A").short) (block "A").code .start
      [⟨"fallback PUSH_VAR_BYTE", [[sta (low 0), dex]], 1, false⟩,
       ⟨"fallback PUSH_VAR_WORD", [[sta (low 0), pha, tya, sta (high 0), pla, dex]], 1, false⟩]
      [] .start := .cons rfl (.cons rfl (.nil _ _))
  have hrun := htakes.codeText_run Catalog.isSound_standard (by decide)
  exact ⟨by decide, rfl, rfl, _, hrun⟩

end Stack6502
