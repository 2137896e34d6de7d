import Stack6502.Proofs.EmittedLines
import Stack6502.Proofs.JumpSelection

/-!
# Labels for forward references

A name of plus signs stands for one of the labels `+` that follow: two signs for the second one,
and so on. Code may define such labels, and so do some templates for their own use, so that the
label reached in the text need not be the one reached in the code.
-/
namespace Stack6502

/-- A line that is a label for forward references: a plus sign, alone or before white space. -/
def Text.isForwardLabel : Text → Bool
  | [] => false
  | b :: rest => b == byte '+' && rest.head?.all fun c => c == newline || c == space || c == tab

def Instr.isForwardLabel (x : Instr) : Bool := x.isLabel && x.sym == Text.ofString "+"

/-- The label that a name of `k + 1` plus signs stands for where `rest` follows. -/
def forward? {α : Type} (isLabel : α → Bool) (rest : List α) (k : Nat) : Option α :=
  (rest.filter isLabel)[k]?

/-- The lines that fragments yield for code from place `n` on, each with the first instruction of
its fragment and the place of that instruction. -/
def emitted (n : Nat) : List Instr → List Fragment → List ((Instr × Nat) × Text)
  | x :: code, f :: fs =>
    f.output.lines.map ((x, n), ·) ++ emitted (n + f.size) ((x :: code).drop f.size) fs
  | _, _ => []

/-! ### Counting to a label -/

section Forward

variable {α : Type} {isLabel : α → Bool} {before after : List α} {a : α} {k : Nat}

theorem forward?_of_countP (hk : before.countP isLabel = k) (ha : isLabel a) :
    forward? isLabel (before ++ a :: after) k = some a := by
  rw [forward?, List.filter_append, List.filter_cons_of_pos ha, ← hk, List.countP_eq_length_filter,
    List.getElem?_append_right (Nat.le_refl _), Nat.sub_self]
  rfl

theorem exists_of_forward? {rest : List α} (h : forward? isLabel rest k = some a) :
    ∃ before after, rest = before ++ a :: after ∧ isLabel a ∧ before.countP isLabel = k := by
  induction rest generalizing k with
  | nil => cases h
  | cons b rest ih =>
    by_cases hb : isLabel b
    · cases k with
      | zero =>
        rw [forward?, List.filter_cons_of_pos hb] at h
        cases h
        exact ⟨[], rest, rfl, hb, rfl⟩
      | succ k =>
        rw [forward?, List.filter_cons_of_pos hb] at h
        obtain ⟨before, after, rfl, ha, hk⟩ := ih h
        exact ⟨b :: before, after, rfl, ha, by rw [List.countP_cons_of_pos hb, hk]⟩
    · rw [forward?, List.filter_cons_of_neg hb] at h
      obtain ⟨before, after, rfl, ha, hk⟩ := ih h
      exact ⟨b :: before, after, rfl, ha, by rw [List.countP_cons_of_neg hb, hk]⟩

/-- A label that is not among those before or after `a` is counted to at `a`. -/
theorem countP_of_forward? {b : α} (h : forward? isLabel (before ++ a :: after) k = some b)
    (ha : isLabel a) (hbefore : b ∉ before) (hafter : b ∉ after) : before.countP isLabel = k := by
  rw [forward?, List.filter_append, List.filter_cons_of_pos ha] at h
  rw [List.countP_eq_length_filter]
  rcases Nat.lt_trichotomy (before.filter isLabel).length k with hlt | heq | hgt
  · rw [List.getElem?_append_right (Nat.le_of_lt hlt), List.getElem?_cons,
      if_neg (Nat.sub_ne_zero_of_lt hlt)] at h
    exact absurd (List.mem_of_mem_filter (List.mem_of_getElem? h)) hafter
  · exact heq
  · rw [List.getElem?_append_left hgt] at h
    exact absurd (List.mem_of_mem_filter (List.mem_of_getElem? h)) hbefore

theorem countP_eq_countP_and_iff {l : List α} {own : α → Bool} :
    l.countP isLabel = l.countP (fun a => isLabel a && own a) ↔
      ∀ a ∈ l, isLabel a → own a := by
  have hsplit := l.countP_eq_countP_filter_add isLabel own
  simp only [List.countP_filter] at hsplit
  have hzero : l.countP isLabel = l.countP (fun a => isLabel a && own a) ↔
      l.countP (fun a => isLabel a && !own a) = 0 := by omega
  rw [hzero, List.countP_eq_zero]
  simp

theorem mem_of_forward? {rest : List α} (h : forward? isLabel rest k = some a) : a ∈ rest :=
  List.mem_of_mem_filter (List.mem_of_getElem? h)

end Forward

/-! ### The lines of fragments and their places -/

namespace LowersTo

variable {scope : Option Text} {piece : List Instr} {f : Fragment}

theorem ne_nil (h : LowersTo scope piece f) : piece ≠ [] := by
  cases h with
  | straight hne => exact hne
  | alone => simp

theorem length_eq (h : LowersTo scope piece f) : piece.length = f.size := by
  cases h with
  | straight _ hlen => exact hlen
  | alone => rfl

/-- An instruction that is not straight is lowered by the code of its opcode. -/
theorem exists_fallback (h : LowersTo scope piece f) {x : Instr} (hx : x ∈ piece)
    (hturn : x.op.isStraight = false) : piece = [x] ∧ ∃ op fallback s t code, x.op = .known op ∧
      fallback? op = some fallback ∧ fallback scope x s = (.ok (some code), t) ∧
      f = ⟨"fallback " ++ op.name, code, 1, op == .inlineAssembly⟩ := by
  cases h with
  | straight _ _ hpiece =>
    have hstraight := hpiece x hx
    rw [hturn] at hstraight
    cases hstraight
  | alone hop hfallback hcode =>
    obtain rfl := List.mem_singleton.mp hx
    exact ⟨rfl, _, _, _, _, _, hop, hfallback, hcode, rfl⟩

theorem of_op {x : Instr} {op : Opcode} {fallback : Fallback} (h : LowersTo scope [x] f)
    (hop : x.op = .known op) (hturn : op.isStraight = false)
    (hfallback : fallback? op = some fallback) :
    ∃ s t code, fallback scope x s = (.ok (some code), t) ∧
      f = ⟨"fallback " ++ op.name, code, 1, op == .inlineAssembly⟩ := by
  obtain ⟨-, _, _, s, t, code, hop', hfallback', hanswer, rfl⟩ :=
    h.exists_fallback (List.mem_singleton_self x) (by rw [hop, Coded.isStraight, hturn])
  rw [hop] at hop'
  cases hop'
  rw [hfallback] at hfallback'
  cases hfallback'
  exact ⟨s, t, code, hanswer, rfl⟩

theorem emitted_append {x : Instr} (h : LowersTo scope (x :: piece) f) (n : Nat) (rest : List Instr)
    (fs : List Fragment) : emitted n (x :: piece ++ rest) (f :: fs) =
      f.output.lines.map ((x, n), ·) ++ emitted (n + (x :: piece).length) rest fs := by
  have hdrop : (x :: piece ++ rest).drop f.size = rest := by
    rw [← h.length_eq, List.drop_left]
  rw [List.cons_append, emitted, ← List.cons_append, hdrop, h.length_eq]

end LowersTo

section Emitted

variable {scope : Option Text} {pieces : List (List Instr)} {fs : List Fragment}

theorem emitted_append (h : List.Forall₂ (LowersTo scope) pieces fs) (n : Nat) (rest : List Instr)
    (gs : List Fragment) : emitted n (pieces.flatten ++ rest) (fs ++ gs) =
      emitted n pieces.flatten fs ++ emitted (n + pieces.flatten.length) rest gs := by
  induction h generalizing n with
  | nil => rfl
  | @cons piece f pieces fs hpiece _ ih =>
    obtain ⟨x, piece, rfl⟩ := List.exists_cons_of_ne_nil hpiece.ne_nil
    rw [List.flatten_cons, List.append_assoc, show f :: fs ++ gs = f :: (fs ++ gs) from rfl,
      hpiece.emitted_append, ih, hpiece.emitted_append, List.append_assoc, List.length_append,
      Nat.add_assoc]

/-- The places of lines are within the code. -/
theorem bounds_of_mem_emitted (h : List.Forall₂ (LowersTo scope) pieces fs) {n : Nat}
    {l : (Instr × Nat) × Text} (hl : l ∈ emitted n pieces.flatten fs) :
    n ≤ l.1.2 ∧ l.1.2 < n + pieces.flatten.length := by
  induction h generalizing n with
  | nil => cases hl
  | @cons piece f pieces fs hpiece _ ih =>
    obtain ⟨x, piece, rfl⟩ := List.exists_cons_of_ne_nil hpiece.ne_nil
    rw [List.flatten_cons, hpiece.emitted_append] at hl
    rw [List.flatten_cons, List.length_append]
    rcases List.mem_append.mp hl with hl | hl
    · obtain ⟨line, -, rfl⟩ := List.mem_map.mp hl
      simp only [List.length_cons]
      omega
    · have hbounds := ih hl
      omega

theorem map_emitted (h : List.Forall₂ (LowersTo scope) pieces fs) (n : Nat) :
    (emitted n pieces.flatten fs).map (·.2) = Text.lines (fs.flatMap Fragment.output) := by
  rw [Fragment.lines_output]
  induction h generalizing n with
  | nil => rfl
  | @cons piece f pieces fs hpiece _ ih =>
    obtain ⟨x, piece, rfl⟩ := List.exists_cons_of_ne_nil hpiece.ne_nil
    rw [List.flatten_cons, hpiece.emitted_append, List.map_append, ih, List.flatMap_cons,
      List.map_map]
    congr 1
    exact List.map_id _

/-- The fragments of a block part where an instruction is not straight. -/
theorem exists_split (h : List.Forall₂ (LowersTo scope) pieces fs) {x : Instr}
    (hx : x.op.isStraight = false) {before after : List Instr}
    (hcode : pieces.flatten = before ++ x :: after) :
    ∃ ps qs gs f hs, ps.flatten = before ∧ qs.flatten = after ∧ fs = gs ++ f :: hs ∧
      List.Forall₂ (LowersTo scope) ps gs ∧ LowersTo scope [x] f ∧
      List.Forall₂ (LowersTo scope) qs hs := by
  induction h generalizing before with
  | nil => simp at hcode
  | @cons piece f pieces fs hpiece hrest ih =>
    rw [List.flatten_cons] at hcode
    -- `x` is in a later piece, starts the next one, or is in this piece and then all of it.
    rcases List.append_eq_append_iff.mp hcode with ⟨as, rfl, hflatten⟩ | ⟨cs, hbefore, hafter⟩
    · obtain ⟨ps, qs, gs, g, hs, rfl, hqs, rfl, hps, hg, hhs⟩ := ih hflatten
      exact ⟨piece :: ps, qs, f :: gs, g, hs, rfl, hqs, rfl, .cons hpiece hps, hg, hhs⟩
    · cases cs with
      | nil =>
        obtain ⟨ps, qs, gs, g, hs, hnil, hqs, rfl, hps, hg, hhs⟩ := @ih [] hafter.symm
        refine ⟨piece :: ps, qs, f :: gs, g, hs, ?_, hqs, rfl, .cons hpiece hps, hg, hhs⟩
        rw [List.flatten_cons, hnil, hbefore, List.append_nil, List.append_nil]
      | cons y cs =>
        obtain ⟨rfl, rfl⟩ := List.cons.inj hafter
        obtain ⟨rfl, -⟩ := hpiece.exists_fallback (by rw [hbefore]; simp) hx
        cases before with
        | cons z before => simp at hbefore
        | nil =>
          cases hbefore
          exact ⟨[], pieces, [], _, fs, rfl, rfl, rfl, .nil, hpiece, hrest⟩

/-- An instruction that is not straight has its lines between those of the code before it and those
of the code after it. -/
theorem exists_emitted_at (h : List.Forall₂ (LowersTo scope) pieces fs) (n : Nat) {x : Instr}
    (hturn : x.op.isStraight = false) {q : Nat} (hx : pieces.flatten[q]? = some x) :
    ∃ ps qs gs f hs, ps.flatten = pieces.flatten.take q ∧ qs.flatten = pieces.flatten.drop (q + 1) ∧
      List.Forall₂ (LowersTo scope) ps gs ∧ LowersTo scope [x] f ∧
      List.Forall₂ (LowersTo scope) qs hs ∧
      emitted n pieces.flatten fs = emitted n ps.flatten gs ++
        (f.output.lines.map ((x, n + q), ·) ++ emitted (n + q + 1) qs.flatten hs) ∧
      (∀ l ∈ emitted n ps.flatten gs, l.1.2 < n + q) ∧
      ∀ l ∈ emitted (n + q + 1) qs.flatten hs, n + q < l.1.2 := by
  obtain ⟨hlt, hget⟩ := List.getElem?_eq_some_iff.mp hx
  have hcode : pieces.flatten = pieces.flatten.take q ++ x :: pieces.flatten.drop (q + 1) := by
    rw [← hget, ← List.drop_eq_getElem_cons hlt, List.take_append_drop]
  obtain ⟨ps, qs, gs, f, hs, hps, hqs, rfl, hgs, hf, hhs⟩ := exists_split h hturn hcode
  have hlen : ps.flatten.length = q := by rw [hps, List.length_take_of_le (Nat.le_of_lt hlt)]
  refine ⟨ps, qs, gs, f, hs, hps, hqs, hgs, hf, hhs, ?_, fun l hl => ?_, fun l hl => ?_⟩
  · rw [hcode, ← hps, ← hqs, emitted_append hgs, hlen]
    exact congrArg _ (hf.emitted_append _ qs.flatten hs)
  · exact hlen ▸ (bounds_of_mem_emitted hgs hl).2
  · exact (bounds_of_mem_emitted hhs hl).1

end Emitted

/-! ### Labels and jumps -/

theorem Instr.op_of_isForwardLabel {x : Instr} (h : x.isForwardLabel) :
    x.op = .known .label ∧ x.sym = Text.ofString "+" := by
  obtain ⟨hop, hsym⟩ := Bool.and_eq_true_iff.mp h
  exact ⟨beq_iff_eq.mp hop, beq_iff_eq.mp hsym⟩

theorem Instr.not_isStraight_of_isForwardLabel {x : Instr} (h : x.isForwardLabel) :
    x.op.isStraight = false := by
  rw [(op_of_isForwardLabel h).1]
  rfl

namespace LowersTo

variable {scope : Option Text} {x : Instr} {f : Fragment}

/-- The label with the name of the scope has no line, any other is laid out like any text. -/
theorem output_label (h : LowersTo scope [x] f) (hx : x.isLabel) :
    f.output = (if scope = some x.sym then [] else Fragment.pieceLines x.sym) ∧
      (scope ≠ some x.sym → x.sym ≠ []) := by
  obtain ⟨_, _, _, hanswer, rfl⟩ := h.of_op (beq_iff_eq.mp hx) rfl rfl
  rw [Fallback.label] at hanswer
  by_cases hscope : scope = some x.sym
  · rw [if_pos hscope] at hanswer ⊢
    cases hanswer
    exact ⟨by decide, fun hne => absurd hscope hne⟩
  · rw [if_neg hscope] at hanswer ⊢
    split at hanswer
    · cases hanswer
    · rename_i hne
      cases hanswer
      have hne : x.sym ≠ [] := by simpa using hne
      have htext : Code.text [[.label x.sym]] = x.sym := by
        simp [Code.text, Code.groupText, Line.text, Text.join, hne]
      refine ⟨?_, fun _ => hne⟩
      rw [Fragment.output, htext]
      rfl

theorem lines_label (h : LowersTo scope [x] f) (hx : x.isForwardLabel) :
    f.output.lines = if scope = some (Text.ofString "+") then [] else [Text.ofString "+\n"] := by
  obtain ⟨hlabel, hsym⟩ := Bool.and_eq_true_iff.mp hx
  obtain ⟨houtput, -⟩ := h.output_label hlabel
  rw [beq_iff_eq.mp hsym] at houtput
  rw [houtput]
  split
  · rfl
  · decide

/-- A jump to a name of plus signs is one line that bears the name. -/
theorem lines_jump {op : Opcode} {m : Mnemonic} {k : Nat} (h : LowersTo scope [x] f)
    (hop : x.op = .known op) (hm : op.jump? = some m)
    (hsym : x.sym = List.replicate (k + 1) (Text.byte '+')) : f.output.lines =
      [Text.tab :: (Text.ofString m.name ++ Text.ofString "  " ++ x.sym ++ [Text.newline])] := by
  obtain ⟨hjump, hturn⟩ := Opcode.of_jump?_eq_some hm
  obtain ⟨_, _, _, hanswer, rfl⟩ := h.of_op hop hturn hjump
  have hplace : Fallback.place? x = some (.name x.sym) := by
    rw [Fallback.place?, hsym]
    rfl
  rw [Fallback.jump, Fallback.plain, hplace] at hanswer
  cases hanswer
  have hraw : (op == .inlineAssembly) = false := by
    rw [beq_eq_false_iff_ne]
    rintro rfl
    cases hm
  have hplus : ∀ b ∈ x.sym, Text.isInline b ∧ b ≠ Text.space := by
    intro b hb
    rw [hsym] at hb
    rw [List.eq_of_mem_replicate hb]
    decide
  rw [hraw]
  exact Fragment.lines_jump _ m (by rw [hsym]; simp) hplus

/-- The lines of a piece that are labels of the code, not of a template, are as many as the labels
in the piece. -/
theorem countP_lines {piece : List Instr} (h : LowersTo scope (x :: piece) f)
    (hscope : scope ≠ some (Text.ofString "+")) :
    f.output.lines.countP (fun line => line.isForwardLabel && x.isForwardLabel) =
      (x :: piece).countP Instr.isForwardLabel := by
  cases hx : x.isForwardLabel with
  | true =>
    obtain ⟨hpiece, -⟩ := h.exists_fallback (List.mem_cons_self ..)
      (Instr.not_isStraight_of_isForwardLabel hx)
    rw [hpiece] at h ⊢
    rw [h.lines_label hx, if_neg hscope, List.countP_cons_of_pos hx]
    decide
  | false =>
    have hnone : ∀ y ∈ x :: piece, ¬ y.isForwardLabel := by
      intro y hy hlabel
      obtain ⟨hpiece, -⟩ :=
        h.exists_fallback hy (Instr.not_isStraight_of_isForwardLabel hlabel)
      obtain ⟨rfl, -⟩ := List.cons.inj hpiece
      rw [hx] at hlabel
      cases hlabel
    rw [List.countP_eq_zero.mpr hnone, List.countP_eq_zero]
    simp

end LowersTo

theorem countP_emitted {scope : Option Text} {pieces : List (List Instr)} {fs : List Fragment}
    (h : List.Forall₂ (LowersTo scope) pieces fs) (hscope : scope ≠ some (Text.ofString "+"))
    (n : Nat) :
    (emitted n pieces.flatten fs).countP (fun l => l.2.isForwardLabel && l.1.1.isForwardLabel) =
      pieces.flatten.countP Instr.isForwardLabel := by
  induction h generalizing n with
  | nil => rfl
  | @cons piece f pieces fs hpiece _ ih =>
    obtain ⟨x, piece, rfl⟩ := List.exists_cons_of_ne_nil hpiece.ne_nil
    rw [List.flatten_cons, hpiece.emitted_append, List.countP_append, ih, List.countP_append,
      List.countP_map, ← hpiece.countP_lines hscope]
    rfl

/-- The line of a label of the code and what is emitted before and after it. -/
theorem exists_emitted_label {scope : Option Text} {pieces : List (List Instr)}
    {fs : List Fragment} (h : List.Forall₂ (LowersTo scope) pieces fs) {n k : Nat}
    {label : Instr × Nat}
    (hlabel : forward? (·.1.isForwardLabel) (pieces.flatten.zipIdx n) k = some label) :
    ∃ before after, emitted n pieces.flatten fs = before ++
        ((if scope = some (Text.ofString "+") then [] else [(label, Text.ofString "+\n")]) ++
          after) ∧
      (∀ l ∈ before, l.1.2 < label.2) ∧ (∀ l ∈ after, label.2 < l.1.2) ∧
      (scope ≠ some (Text.ofString "+") →
        before.countP (fun l => l.2.isForwardLabel && l.1.1.isForwardLabel) = k) := by
  obtain ⟨pre, post, hzip, hfwd, hk⟩ := exists_of_forward? hlabel
  obtain ⟨x, place⟩ := label
  have hcode : pieces.flatten = pre.map (·.1) ++ x :: post.map (·.1) := by
    rw [← List.zipIdx_map_fst n pieces.flatten, hzip, List.map_append, List.map_cons]
  have hplace : place = n + pre.length := by
    have hget : (pieces.flatten.zipIdx n)[pre.length]? = some (x, place) := by rw [hzip]; simp
    rw [List.getElem?_zipIdx] at hget
    obtain ⟨y, -, hy⟩ := Option.map_eq_some_iff.mp hget
    exact (Prod.mk.inj hy).2.symm
  have hx : pieces.flatten[pre.length]? = some x := by rw [hcode]; simp
  -- No pattern covers a label, so the fragments part at it as the code does.
  obtain ⟨ps, qs, gs, f, hs, hps, -, hgs, hf, -, hlines, hbefore, hafter⟩ :=
    exists_emitted_at h n (Instr.not_isStraight_of_isForwardLabel hfwd) hx
  rw [← hplace] at hlines hbefore hafter
  refine ⟨_, _, ?_, hbefore, hafter, fun hscope => ?_⟩
  · rw [hlines, hf.lines_label hfwd]
    split
    · rfl
    · rfl
  · have htake : ps.flatten = pre.map (·.1) := by rw [hps, hcode]; simp
    rw [countP_emitted hgs hscope, htake, List.countP_map]
    exact hk

/-- A name reaches the line of the label that it stands for in the code exactly if the label has a
line and no line of another instruction in between is a label too. -/
theorem forward?_emitted_iff {scope : Option Text} {pieces : List (List Instr)}
    {fs : List Fragment} (h : List.Forall₂ (LowersTo scope) pieces fs) {n k : Nat}
    {label : Instr × Nat}
    (hlabel : forward? (·.1.isForwardLabel) (pieces.flatten.zipIdx n) k = some label) :
    (forward? (·.2.isForwardLabel) (emitted n pieces.flatten fs) k).map (·.1) = some label ↔
      scope ≠ some (Text.ofString "+") ∧ ∀ l ∈ emitted n pieces.flatten fs,
        l.1.2 < label.2 → l.2.isForwardLabel → l.1.1.isForwardLabel := by
  obtain ⟨before, after, hlines, hbefore, hafter, hcount⟩ := exists_emitted_label h hlabel
  rw [hlines]
  by_cases hscope : scope = some (Text.ofString "+")
  · -- The label has no line, and every other line has another place.
    rw [if_pos hscope, List.nil_append]
    refine ⟨fun hreach => ?_, fun hright => absurd hscope hright.1⟩
    obtain ⟨l, hl, rfl⟩ := Option.map_eq_some_iff.mp hreach
    rcases List.mem_append.mp (mem_of_forward? hl) with hmem | hmem
    · exact absurd (hbefore l hmem) (Nat.lt_irrefl _)
    · exact absurd (hafter l hmem) (Nat.lt_irrefl _)
  · rw [if_neg hscope, List.singleton_append]
    have hplus : Text.isForwardLabel (Text.ofString "+\n") := by decide
    -- Both sides say that the lines before the label count the same with and without the foreign.
    have hown : before.countP (·.2.isForwardLabel) = k ↔
        ∀ l ∈ before, l.2.isForwardLabel → l.1.1.isForwardLabel := by
      rw [← hcount hscope]
      exact countP_eq_countP_and_iff
    constructor
    · intro hreach
      obtain ⟨l, hl, hfst⟩ := Option.map_eq_some_iff.mp hreach
      have hk := countP_of_forward? hl hplus
        (fun hmem => Nat.lt_irrefl _ (hfst ▸ hbefore l hmem))
        (fun hmem => Nat.lt_irrefl _ (hfst ▸ hafter l hmem))
      refine ⟨hscope, fun m hm hlt => ?_⟩
      rcases List.mem_append.mp hm with hmem | hmem
      · exact hown.mp hk m hmem
      · rcases List.mem_cons.mp hmem with rfl | hmem
        · exact absurd hlt (Nat.lt_irrefl _)
        · exact absurd hlt (Nat.lt_asymm (hafter m hmem))
    · rintro ⟨-, hforeign⟩
      have hk := hown.mpr fun l hl => hforeign l (List.mem_append_left _ hl) (hbefore l hl)
      rw [forward?_of_countP hk hplus]
      rfl

end Stack6502
