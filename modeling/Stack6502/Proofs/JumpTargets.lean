import Stack6502.Proofs.ForwardLabels

/-!
# Where jumps to forward labels arrive

A jump to a name of plus signs is written with the name it has. It arrives at the line of the label
meant exactly if no other instruction in between brings a line that is a label too.
-/
namespace Stack6502

def jumpLine (m : Mnemonic) (sym : Text) : Text :=
  Text.tab :: (Text.ofString m.name ++ Text.ofString "  " ++ sym ++ [Text.newline])

/-- The lines of a block part at the line of a jump, with lines of earlier code before it and lines
of later code after it. -/
theorem exists_emitted_jump {scope : Option Text} {pieces : List (List Instr)}
    {fs : List Fragment} (h : List.Forall₂ (LowersTo scope) pieces fs) {x : Instr} {p k : Nat}
    (hx : pieces.flatten[p]? = some x) {op : Opcode} {m : Mnemonic} (hop : x.op = .known op)
    (hm : op.jump? = some m) (hsym : x.sym = List.replicate (k + 1) (Text.byte '+')) :
    ∃ before qs hs, List.Forall₂ (LowersTo scope) qs hs ∧
      qs.flatten = pieces.flatten.drop (p + 1) ∧
      emitted 0 pieces.flatten fs =
        before ++ ((x, p), jumpLine m x.sym) :: emitted (p + 1) qs.flatten hs ∧
      ∀ l ∈ before, l.1.2 < p := by
  have hturn : x.op.isStraight = false := by
    rw [hop, Coded.isStraight, (Opcode.of_jump?_eq_some hm).2]
  obtain ⟨ps, qs, gs, f, hs, -, hqs, -, hf, hhs, hlines, hbefore, -⟩ :=
    exists_emitted_at h 0 hturn hx
  rw [Nat.zero_add] at hlines hbefore
  refine ⟨emitted 0 ps.flatten gs, qs, hs, hhs, hqs, ?_, hbefore⟩
  rw [hlines, hf.lines_jump hop hm hsym]
  rfl

/-! ### A branch over a step -/

namespace Skipping

def byteStep : Instr := { op := .known .incVarUB, sym := "w" }

def wordStep : Instr := { op := .known .incVarUW, sym := "w" }

def branch : Instr := { op := .known .bz, sym := "+" }

def label : Instr := { op := .known .label, sym := "+" }

def block (x : Instr) : Block where
  name := "main"
  short := "main"
  address := 0
  decls := []
  code := [branch, x, { op := .known .nop }, label]

def fragments (f : Fragment) : List Fragment :=
  [⟨"fallback BZ", [[.instr .beq (.direct (.name "+"))]], 1, false⟩, f,
   ⟨"fallback NOP", [[.instr .nop .none]], 1, false⟩,
   ⟨"fallback LABEL", [[.label "+"]], 1, false⟩]

open Asm in
def byteFragment : Fragment where
  name := "fallback INC_VAR_UB"
  code := [[inc (Cell.named "w").lo]]
  size := 1
  isRaw := false

open Asm in
def wordFragment : Fragment where
  name := "fallback INC_VAR_UW"
  code := [[inc (Cell.named "w").lo, bne next, inc (Cell.named "w").hi, here]]
  size := 1
  isRaw := false

theorem takes_byteStep : Catalog.standard.Takes (some (block byteStep).short)
    (block byteStep).code .start (fragments byteFragment) [] .start :=
  .cons rfl (.cons rfl (.cons rfl (.cons rfl (.nil _ _))))

theorem takes_wordStep : Catalog.standard.Takes (some (block wordStep).short)
    (block wordStep).code .start (fragments wordFragment) [] .start :=
  .cons rfl (.cons rfl (.cons rfl (.cons rfl (.nil _ _))))

end Skipping

/-! ### The label a jump arrives at -/

/-- In the text of a block a jump to a name of plus signs arrives at the line of the label that the
name stands for in the code exactly if the block does not bear the name `+`, which would leave the
label without a line, and each line up to there that is a label comes from a label of the code. -/
theorem jump_reaches_label_iff {window : Int} {c : Catalog}
    (hmake : Catalog.make window Idiom.all Assignment.rules = .ok c)
    {b : Block} {s t : Session} {text : Text}
    (hrun : (Assembly.codeText c b).run.run s = (.ok text, t))
    {x : Instr} {p k : Nat} (hx : b.code[p]? = some x)
    {op : Opcode} {m : Mnemonic} (hop : x.op = .known op) (hm : op.jump? = some m)
    (hsym : x.sym = List.replicate (k + 1) (Text.byte '+')) {label : Instr × Nat}
    (hlabel : forward? (·.1.isForwardLabel) ((b.code.drop (p + 1)).zipIdx (p + 1)) k = some label) :
    ∃ fs u before after, c.Takes (some b.short) b.code s fs [] u ∧
      (emitted 0 b.code fs).map (·.2) = text.lines ∧
      emitted 0 b.code fs = before ++ ((x, p), jumpLine m x.sym) :: after ∧
      (∀ l ∈ before, l.1.2 < p) ∧ (∀ l ∈ after, p < l.1.2) ∧
      ((forward? (·.2.isForwardLabel) after k).map (·.1) = some label ↔
        b.short ≠ Text.ofString "+" ∧
          ∀ l ∈ after, l.1.2 < label.2 → l.2.isForwardLabel → l.1.1.isForwardLabel) := by
  obtain ⟨hsound, rfl⟩ := Catalog.isSound_of_make hmake
  have hcode : b.code ≠ [] := by
    rintro hnil
    rw [hnil] at hx
    cases hx
  -- A negative window would have been a defect at the first instruction.
  have hwindow := Assembly.window_nonneg_of_codeText hcode hrun
  obtain ⟨fs, u, htakes, rfl⟩ := hsound.of_codeText_eq_ok hwindow hrun
  obtain ⟨pieces, hpieces, hflatten⟩ := htakes.lowersTo hmake hwindow
  rw [List.append_nil] at hflatten
  rw [hflatten] at hx hlabel
  obtain ⟨before, qs, hs, hhs, hqs, hlines, hbefore⟩ :=
    exists_emitted_jump hpieces hx hop hm hsym
  rw [← hqs] at hlabel
  refine ⟨fs, u, before, emitted (p + 1) qs.flatten hs, htakes, ?_, ?_, hbefore, fun l hl => ?_, ?_⟩
  · rw [hflatten, map_emitted hpieces]
  · rw [hflatten, hlines]
  · exact (bounds_of_mem_emitted hhs hl).1
  · rw [forward?_emitted_iff hhs hlabel, ne_eq, ne_eq, Option.some_inj]

open Skipping in
theorem jump_reaches_label_iff_byteStep : ∃ text t fs u after,
    (Assembly.codeText .standard (block byteStep)).run.run .start = (.ok text, t) ∧
      Catalog.standard.Takes (some (block byteStep).short) (block byteStep).code .start fs [] u ∧
      (emitted 0 (block byteStep).code fs).map (·.2) = text.lines ∧
      emitted 0 (block byteStep).code fs = ((branch, 0), jumpLine .beq "+") :: after ∧
      (forward? (·.2.isForwardLabel) after 0).map (·.1) = some (label, 3) := by
  have hmake : Catalog.make Catalog.defaultWindow Idiom.all Assignment.rules = .ok .standard :=
    Catalog.make_all Catalog.defaultWindow
  have hrun := takes_byteStep.codeText_run Catalog.isSound_standard (by decide)
  obtain ⟨fs, u, before, after, htakes, hlines, hparts, hbefore, -, hreach⟩ :=
    jump_reaches_label_iff hmake hrun (x := branch) (p := 0) (k := 0) rfl rfl rfl rfl rfl
  obtain rfl := htakes.unique Catalog.isSound_standard (by decide) takes_byteStep
  cases before with
  | cons l before => exact absurd (hbefore l (List.mem_cons_self ..)) (Nat.not_lt_zero _)
  | nil =>
    refine ⟨_, _, _, u, after, hrun, htakes, hlines, hparts, hreach.mpr ⟨by decide, ?_⟩⟩
    cases hparts
    decide

open Skipping in
/-- Stepping a word brings a label of its own, and a branch over it arrives there. -/
theorem jump_reaches_template_label :
    (∃ t, (Assembly.codeText .standard (block wordStep)).run.run .start =
      (.ok "\tbeq  +\n\tinc  w\n\tbne  +\n\tinc  w+1\n+\n\tnop\n+\n", t)) ∧
    Catalog.standard.Takes (some (block wordStep).short) (block wordStep).code .start
      (fragments wordFragment) [] .start ∧
    forward? (·.1.isForwardLabel) (((block wordStep).code.drop 1).zipIdx 1) 0 = some (label, 3) ∧
    ∃ after, emitted 0 (block wordStep).code (fragments wordFragment) =
        ((branch, 0), jumpLine .beq "+") :: after ∧
      (forward? (·.2.isForwardLabel) after 0).map (·.1) = some (wordStep, 1) := by
  have hrun := takes_wordStep.codeText_run Catalog.isSound_standard (by decide)
  exact ⟨⟨_, hrun⟩, takes_wordStep, by decide, _, rfl, by decide⟩

end Stack6502
