import Stack6502.Proofs.LabelPlaces
import Stack6502.Proofs.Words

/-!
# Source lines are comments

A reference to a line of the source is lowered on its own, to a comment that holds the reference.
Like any code it is divided at bars, and what follows a bar is no longer part of the comment. So the
reference is a comment and nothing else exactly if nothing visible follows a bar in it.
-/
namespace Stack6502

/-! ### Pieces and comments -/

namespace Text

/-- The first character that is no white space is a semicolon. -/
def IsComment (line : Text) : Prop := (pieces line).find? (!·.isBlank) = some (.char ';')

/-- Trimming leaves a visible character in front where it is. -/
theorem exists_trim_cons {b : UInt8} (hb : b.toNat < 128)
    (hvisible : isBlank (Char.ofNat b.toNat) = false) (t : Text) : ∃ u, trim (b :: t) = b :: u := by
  obtain ⟨front, middle, back, hsplit, htrim, hfront, hback, -⟩ := exists_trim (b :: t)
  rw [pieces_cons_ascii hb] at hsplit
  have hblank {ps : List Piece} (hps : ∀ p ∈ ps, p.isBlank) :
      Piece.char (Char.ofNat b.toNat) ∉ ps := fun hmem =>
    Bool.false_ne_true (hvisible.symm.trans (hps _ hmem))
  -- The character belongs neither to the white space in front nor to that behind.
  cases front with
  | cons p front =>
    obtain ⟨rfl, -⟩ := List.cons.inj hsplit
    exact absurd (List.mem_cons_self ..) (hblank hfront)
  | nil =>
    cases middle with
    | nil =>
      rw [List.nil_append, List.nil_append] at hsplit
      exact absurd (hsplit ▸ List.mem_cons_self ..) (hblank hback)
    | cons p middle =>
      obtain ⟨rfl, -⟩ := List.cons.inj hsplit
      refine ⟨ofPieces middle, ?_⟩
      rw [htrim, ofPieces, List.flatMap_cons, Piece.bytes, utf8EncodeChar_one hb]
      rfl

end Text

namespace Fragment

def sourceLead : Text := " ;\tsrc line: "

def ofSource (sym : Text) : Fragment := ⟨"fallback " ++ Opcode.line.name, [[.source sym]], 1, false⟩

theorem lines_output_ofSource (sym : Text) :
    (ofSource sym).output.lines = (pieceLines (sourceLead ++ sym)).lines := by
  have hline : Line.text " " (.source sym) =
      Text.space :: (Text.ofString ";\tsrc line: " ++ sym) := rfl
  have htext : (ofSource sym).code.text = sourceLead ++ sym := by
    simp [ofSource, Code.text, Code.groupText, Text.join, hline]
    rfl
  rw [output, htext]
  rfl

/-- The piece at the start of the text is a comment. -/
theorem pieceLine?_sourceLead (first : Text) :
    ∃ comment : Text, comment.IsComment ∧ pieceLine? (sourceLead ++ first) = some comment := by
  obtain ⟨body, hbody⟩ := Text.exists_trim_cons (b := Text.byte ';') (by decide) (by decide)
    (Text.ofString "\tsrc line: " ++ first)
  have htrim : Text.trim (sourceLead ++ first) = Text.byte ';' :: body := hbody
  refine ⟨Text.tab :: Text.byte ';' :: (body ++ [Text.newline]), ?_, ?_⟩
  · rw [Text.IsComment, Text.pieces_cons_ascii (by decide), Text.pieces_cons_ascii (by decide)]
    rfl
  · rw [pieceLine?, htrim]
    rfl

/-- The first piece of a reference is the comment, the others are lines like any code. -/
theorem lines_ofSource {sym first : Text} {rest : List Text} (h : Text.newline ∉ sym)
    (hsym : sym.splitOn (Text.byte '|') = first :: rest) : ∃ comment : Text, comment.IsComment ∧
      (ofSource sym).output.lines = comment :: rest.filterMap pieceLine? := by
  have hnewline : Text.newline ∉ sourceLead ++ sym := by
    rw [List.mem_append, not_or]
    exact ⟨by decide, h⟩
  obtain ⟨comment, hcomment, hfirst⟩ := pieceLine?_sourceLead first
  refine ⟨comment, hcomment, ?_⟩
  rw [lines_output_ofSource, lines_pieceLines hnewline, Text.splitOn_append (by decide) hsym,
    List.filterMap_cons, hfirst]

end Fragment

/-! ### No pattern stands at a source line -/

/-- Idioms start with a push. -/
theorem Idiom.predicate_line {i : Idiom} (hi : i ∈ all) {p : Predicate} (hp : i.predicate = some p)
    {x : Instr} (hx : x.op = .known .line) {w : List Instr} (hlen : (x :: w).length = i.span) :
    p (x :: w) = .ok false := by
  simp only [all, List.mem_cons, List.not_mem_nil, or_false] at hi
  rcases hi with rfl | rfl | rfl | rfl | rfl
  · cases hp
    obtain ⟨o, y, rfl⟩ := List.length_eq_two.mp (Nat.succ.inj hlen)
    simp [popsVar, hx]
  · cases hp
    obtain ⟨o, y, rfl⟩ := List.length_eq_two.mp (Nat.succ.inj hlen)
    simp [popsMem, hx]
  · cases hp
    obtain ⟨y, o, z, rfl⟩ := List.length_eq_three.mp (Nat.succ.inj hlen)
    simp [step?, operands, constWidth?, pushWidth?, hx]
  · cases hp
    obtain ⟨y, o, j, z, rfl⟩ := List.length_eq_four.mp (Nat.succ.inj hlen)
    simp [Instr.is, hx]
  · cases hp
    obtain ⟨y, o, j, z, rfl⟩ := List.length_eq_four.mp (Nat.succ.inj hlen)
    simp [Instr.is, hx]

theorem Assignment.line_notMem_rules : ∀ r ∈ rules, Opcode.line ∉ r.seq ++ r.alt := by
  decide

namespace Catalog

open Selection

variable {window : Int} {c : Catalog} (hmake : make window Idiom.all Assignment.rules = .ok c)
  {x : Instr} (hx : x.op = .known .line)
include hmake hx

theorem notMem_bids_line {op : Opcode} {w : List Instr} :
    ∀ bid ∈ c.bids op (x :: w), ∀ pool, ∀ f, f ∉ bid.1 pool := by
  obtain ⟨hwell, hpos, rfl⟩ := make_eq_ok_iff.mp hmake
  intro bid hbid pool f hf
  rcases List.mem_append.mp hbid with hbid | hbid
  · obtain ⟨i, hi, rfl⟩ := List.mem_map.mp hbid
    have hmem := List.fst_mem_of_mem_zipIdx hi
    obtain ⟨⟨hspan, hp⟩, -⟩ := Option.mem_ite_none_right.mp hf
    obtain ⟨p, hp, hw⟩ := Option.map_eq_some_iff.mp hp
    have hlen : ((x :: w).take i.1.span).length = i.1.span := List.length_take_of_le hspan
    rw [List.take_cons (hpos _ hmem)] at hw hlen
    rw [Idiom.predicate_line hmem hp hx hlen] at hw
    cases hw
  · obtain ⟨r, hr, rfl⟩ := List.mem_map.mp hbid
    have hmem := mem_of_mem_rulesAt rfl hr
    obtain ⟨happlies, -⟩ := Option.mem_ite_none_right.mp hf
    have hfirst : x ∈ (x :: w).take r.2.size := by
      rw [List.take_cons (Rule.size_pos (hwell _ hmem))]
      exact List.mem_cons_self ..
    obtain ⟨op, hop, hop'⟩ := Rule.exists_op_of_applies (hwell _ hmem) happlies hfirst
    rw [hx, Coded.known.injEq] at hop'
    exact Assignment.line_notMem_rules _ hmem (hop' ▸ hop)

/-- A source line is lowered on its own, whatever follows it. -/
theorem select_line (hwindow : 1 ≤ window) (scope : Option Text) (code : List Instr)
    (s : Session) : ∃ pool, (c.select scope (x :: code)).run.run s =
      (.ok (some (.ofSource x.sym)), { s with pool }) := by
  obtain ⟨hc, rfl⟩ := isSound_of_make hmake
  have hcomplete : x.isComplete := by
    have hshape : Opcode.line.operand = .none := rfl
    simp [Instr.isComplete, Instr.fault?, Instr.hasOperand, hshape, hx]
  have hreach := reach_cons (show 0 < c.window.toNat by omega) hcomplete code
  rcases select_cases hc (by omega) scope (x :: code) s with ⟨hnil, -⟩ | hcases
  · rw [hreach] at hnil
    cases hnil
  · obtain ⟨y, rest, op, best, pool, hcons, hy, hconsidered, hrun⟩ := hcases
    rw [hreach] at hcons
    obtain ⟨rfl, rfl⟩ := List.cons.inj hcons
    obtain rfl : Opcode.line = op := Coded.known.inj (hx.symm.trans hy.1)
    have hnone : ∀ b ∈ best, False :=
      hconsidered.forall_of_forall (P := fun _ => False) (notMem_bids_line hmake hx) (by simp)
    obtain rfl := Option.eq_none_iff_forall_not_mem.mpr hnone
    have hline : fallback? .line = some (.plain fun x => some [[.source x.sym]]) := rfl
    exact ⟨pool, hrun.trans (alone_run hline rfl)⟩

end Catalog

/-! ### References as comments -/

/-- The first line of a reference to a line of the source is a comment. It is the only line exactly
if nothing visible follows a bar in the reference: what does follow is emitted as code. -/
theorem Catalog.source_commented_iff {window : Int} {c : Catalog}
    (hmake : make window Idiom.all Assignment.rules = .ok c) (hwindow : 1 ≤ window) {x : Instr}
    (hx : x.op = .known .line) (hsym : Text.newline ∉ x.sym) (scope : Option Text)
    (code : List Instr) (s : Session) :
    ∃ f pool, (c.select scope (x :: code)).run.run s = (.ok (some f), { s with pool }) ∧
      f.size = 1 ∧
      (∃ comment : Text, comment.IsComment ∧ f.output.lines =
        comment :: (x.sym.splitOn (Text.byte '|')).tail.filterMap Fragment.pieceLine?) ∧
      ((∃ comment : Text, comment.IsComment ∧ f.output.lines = [comment]) ↔
        ∀ piece ∈ (x.sym.splitOn (Text.byte '|')).tail, piece.trim = []) := by
  obtain ⟨pool, hrun⟩ := select_line hmake hx hwindow scope code s
  obtain ⟨first, rest, hsplit⟩ :=
    List.exists_cons_of_ne_nil (Text.splitOn_ne_nil (Text.byte '|') x.sym)
  obtain ⟨comment, hcomment, hlines⟩ := Fragment.lines_ofSource hsym hsplit
  have hrest : rest.filterMap Fragment.pieceLine? = [] ↔ ∀ piece ∈ rest, piece.trim = [] := by
    simp [Fragment.pieceLine?]
  refine ⟨_, pool, hrun, rfl, ⟨comment, hcomment, ?_⟩, ?_⟩
  · rw [hlines, hsplit, List.tail_cons]
  · rw [hlines, hsplit, List.tail_cons, ← hrest]
    constructor
    · rintro ⟨_, -, hone⟩
      exact (List.cons.inj hone).2
    · intro hnil
      exact ⟨comment, hcomment, by rw [hnil]⟩

/-- Bars at the end of a reference are dropped. -/
theorem Catalog.source_commented_iff_trailing : ∃ f pool,
    (standard.select none [{ op := .known .line, sym := "hello.p8:10 | |" }]).run.run .start =
      (.ok (some f), { Session.start with pool }) ∧
      ∃ comment : Text, comment.IsComment ∧ f.output.lines = [comment] := by
  obtain ⟨f, pool, hrun, -, -, hcommented⟩ := source_commented_iff (make_all defaultWindow)
    (by decide) (x := { op := .known .line, sym := "hello.p8:10 | |" }) rfl (by decide) none []
    .start
  exact ⟨f, pool, hrun, hcommented.mpr (by decide)⟩

/-- A bar ends the comment, and an instruction follows that the program does not have. -/
theorem Catalog.source_instruction : ∃ f pool,
    (standard.select none [{ op := .known .line, sym := "hello.p8:10 | brk" }]).run.run .start =
      (.ok (some f), { Session.start with pool }) ∧
      f.output = Text.ofString "\t;\tsrc line: hello.p8:10\n\tbrk\n" ∧
      ¬ ∃ comment : Text, comment.IsComment ∧ f.output.lines = [comment] := by
  obtain ⟨pool, hrun⟩ := select_line (make_all defaultWindow)
    (x := { op := .known .line, sym := "hello.p8:10 | brk" }) rfl (by decide) none [] .start
  have houtput : (Fragment.ofSource "hello.p8:10 | brk").output =
      Text.ofString "\t;\tsrc line: hello.p8:10\n\tbrk\n" := by decide
  refine ⟨_, pool, hrun, houtput, ?_⟩
  rintro ⟨comment, -, hone⟩
  rw [houtput] at hone
  have htwo : (Text.ofString "\t;\tsrc line: hello.p8:10\n\tbrk\n").lines.length = 2 := by decide
  rw [hone] at htwo
  cases htwo

end Stack6502
