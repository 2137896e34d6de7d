import Stack6502.Proofs.CancelledFlags
import Stack6502.Proofs.NameText
import Stack6502.Proofs.Words

/-!
# Lines that take an index step

A line takes an index step if it is indented and its mnemonic stands alone between white space,
with a comment or nothing after it. Cancelling such lines in pairs from left to right keeps all
other lines in order, and for each index register the steps up less the steps down.
-/
namespace Stack6502

namespace Text

/-! ### White space around a word -/

def IsBlanks (t : Text) : Prop := ∀ p ∈ pieces t, p.isBlank

variable {t w : Text}

theorem IsBlanks.isSeam (h : IsBlanks t) : IsSeam t := by
  rw [← ofPieces_pieces t]
  exact isSeam_of_isBlank fun p hp => h p (List.mem_of_mem_head? hp)

/-- A byte that is a visible character is not part of white space. -/
theorem IsBlanks.notMem (h : IsBlanks t) {b : UInt8} (hb : b.toNat < 128)
    (hvisible : isBlank (Char.ofNat b.toNat) = false) : b ∉ t := fun hmem =>
  Bool.false_ne_true (hvisible.symm.trans (h _ (mem_pieces_of_mem hb hmem)))

theorem trim_of_blanks {front back : Text} (hfront : IsBlanks front) (hback : IsBlanks back)
    (hw : IsTrimmed w) (hne : w ≠ []) (hseam : IsSeam w) : trim (front ++ (w ++ back)) = w := by
  obtain ⟨b, rest, rfl⟩ := List.exists_cons_of_ne_nil hne
  have hpieces : pieces (front ++ (b :: rest ++ back)) =
      pieces front ++ (pieces (b :: rest) ++ pieces back) := by
    rw [pieces_append (u := front) (v := b :: rest ++ back) hseam, pieces_append hback.isSeam]
  have hhead : ∀ p ∈ (pieces (b :: rest) ++ pieces back).head?, p.isBlank = false := by
    rw [List.head?_append_of_ne_nil _ (pieces_ne_nil hne)]
    exact hw.head
  have hlast : ∀ p ∈ (pieces (b :: rest)).reverse.head?, p.isBlank = false := by
    rw [List.head?_reverse]
    exact hw.last
  have hblank : ∀ p ∈ (pieces back).reverse, p.isBlank := fun p hp => hback p (by simpa using hp)
  rw [trim, hpieces, List.dropWhile_append_of_pos hfront, dropWhile_of_head? hhead,
    List.reverse_append, List.dropWhile_append_of_pos hblank, dropWhile_of_head? hlast,
    List.reverse_reverse, ofPieces_pieces]

theorem exists_blanks_of_trim (htrim : trim t = w) (hne : w ≠ []) (hseam : IsSeam w) :
    ∃ front back, t = front ++ (w ++ back) ∧ IsBlanks front ∧ IsBlanks back := by
  obtain ⟨front, middle, back, hsplit, hmiddle, hfront, hback, -⟩ := exists_trim t
  obtain ⟨ht, hrest⟩ := of_pieces_eq_append hsplit
  obtain ⟨hparts, hback'⟩ := of_pieces_eq_append hrest
  rw [← hmiddle, htrim] at hparts
  rw [hparts] at ht
  obtain ⟨b, rest, rfl⟩ := List.exists_cons_of_ne_nil hne
  refine ⟨_, _, ht, ?_, ?_⟩
  · rwa [IsBlanks, pieces_ofPieces hsplit (by rw [hparts]; exact hseam)]
  · rwa [IsBlanks, hback']

/-- What stands before a separator holds none, and what follows is empty or starts with one. -/
theorem exists_cut (sep : UInt8) (t : Text) : ∃ rest, t = (t.cut sep).1 ++ rest ∧
    sep ∉ (t.cut sep).1 ∧ ∀ b ∈ rest.head?, b = sep := by
  have hsplit := List.takeWhile_append_dropWhile (p := (· != sep)) (l := t)
  have hfirst : (t.cut sep).1 = t.takeWhile (· != sep) := by
    unfold cut
    split
    next hnil => rw [hnil, List.append_nil] at hsplit; exact hsplit.symm
    next => rfl
  refine ⟨t.dropWhile (· != sep), by rw [hfirst, hsplit], ?_, ?_⟩
  · intro hmem
    rw [hfirst] at hmem
    simpa using List.mem_takeWhile_imp hmem
  · intro b hb
    simpa using head?_dropWhile (· != sep) t b hb

theorem fst_cut_append {sep : UInt8} {t rest : Text} (ht : sep ∉ t)
    (hrest : ∀ b ∈ rest.head?, b = sep) : ((t ++ rest).cut sep).1 = t := by
  cases rest with
  | nil => rw [List.append_nil, cut_of_notMem ht]
  | cons b rest =>
    obtain rfl := hrest b rfl
    rw [cut_append ht]

end Text

/-! ### The step of a line -/

namespace IndexStep

def mnemonic : IndexStep → String
  | .inx => "inx"
  | .dex => "dex"
  | .iny => "iny"
  | .dey => "dey"

theorem ofMnemonic?_eq_some_iff {t : Text} {s : IndexStep} :
    ofMnemonic? t = some s ↔ t = s.mnemonic := by
  constructor
  · intro h
    unfold ofMnemonic? at h
    split_ifs at h with hinx hdex hiny hdey
    all_goals cases h
    · exact hinx
    · exact hdex
    · exact hiny
    · exact hdey
  · rintro rfl
    cases s <;> decide

/-- The line is indented and holds the step alone, between white space and before a comment. -/
def StandsOn (s : IndexStep) (line : Text) : Prop :=
  ∃ lead tail comment : Text, line = lead ++ (s.mnemonic ++ tail) ++ comment ∧
    (lead.head? = some Text.tab ∨ lead.head? = some Text.space) ∧ lead.IsBlanks ∧ tail.IsBlanks ∧
    ∀ b ∈ comment.head?, b = Text.byte ';'

theorem visible_mnemonic (s : IndexStep) :
    ∀ b ∈ Text.ofString s.mnemonic, 0x20 < b.toNat ∧ b.toNat < 128 ∧ b ≠ Text.byte ';' := by
  have h : (Text.ofString s.mnemonic).all fun b =>
      0x20 < b.toNat ∧ b.toNat < 128 ∧ b ≠ Text.byte ';' := by
    cases s <;> decide
  exact fun b hb => of_decide_eq_true (List.all_eq_true.mp h b hb)

theorem isWord_mnemonic (s : IndexStep) : Text.IsWord s.mnemonic := by
  refine Text.isWord_of_visible (by cases s <;> decide) fun b hb => ?_
  obtain ⟨hlow, hhigh, -⟩ := s.visible_mnemonic b hb
  exact ⟨hlow, hhigh⟩

theorem isSeam_mnemonic (s : IndexStep) : Text.IsSeam s.mnemonic := by
  cases s <;> exact Text.isSeam_cons_ascii (by decide) _

theorem ofLine?_eq_some_iff {line : Text} {s : IndexStep} :
    ofLine? line = some s ↔ s.StandsOn line := by
  constructor
  · intro h
    cases line with
    | nil => cases h
    | cons b line =>
      obtain ⟨hb, hs⟩ := Option.ite_none_right_eq_some.mp h
      rw [Bool.or_eq_true, beq_iff_eq, beq_iff_eq] at hb
      obtain ⟨comment, hline, -, hcomment⟩ := Text.exists_cut (Text.byte ';') (b :: line)
      obtain ⟨lead, tail, hcode, hlead, htail⟩ := Text.exists_blanks_of_trim
        (ofMnemonic?_eq_some_iff.mp hs) s.isWord_mnemonic.1 s.isSeam_mnemonic
      rw [hcode] at hline
      refine ⟨lead, tail, comment, hline, ?_, hlead, htail, hcomment⟩
      cases lead with
      | nil =>
        -- The first byte would belong to the mnemonic.
        have hmem : b ∈ Text.ofString s.mnemonic := by
          have hhead := congrArg List.head? hline
          rw [List.nil_append, List.append_assoc,
            List.head?_append_of_ne_nil _ s.isWord_mnemonic.1] at hhead
          exact List.mem_of_mem_head? hhead.symm
        obtain ⟨hlow, -⟩ := s.visible_mnemonic b hmem
        rcases hb with rfl | rfl
        · exact absurd hlow (by decide)
        · exact absurd hlow (by decide)
      | cons c lead =>
        obtain ⟨rfl, -⟩ := List.cons.inj hline
        simpa using hb
  · rintro ⟨lead, tail, comment, rfl, hindent, hlead, htail, hcomment⟩
    have hcode : Text.byte ';' ∉ lead ++ (s.mnemonic ++ tail) := by
      simp only [List.mem_append, not_or]
      refine ⟨hlead.notMem (by decide) (by decide), fun hmem => ?_,
        htail.notMem (by decide) (by decide)⟩
      exact (s.visible_mnemonic _ hmem).2.2 rfl
    have htrim : ((lead ++ (s.mnemonic ++ tail) ++ comment).cut (Text.byte ';')).1.trim =
        s.mnemonic := by
      rw [Text.fst_cut_append hcode hcomment]
      exact Text.trim_of_blanks hlead htail s.isWord_mnemonic.isTrimmed s.isWord_mnemonic.1
        s.isSeam_mnemonic
    obtain ⟨b, lead, rfl⟩ : ∃ b rest, lead = b :: rest :=
      List.exists_cons_of_ne_nil (by rintro rfl; simp at hindent)
    have hb : (b == Text.tab || b == Text.space) = true := by simpa using hindent
    exact (if_pos hb).trans (ofMnemonic?_eq_some_iff.mpr htrim)

end IndexStep

theorem cancels_iff_standsOn {first second : Text} :
    cancels first second ↔ ∃ s : IndexStep, s.StandsOn first ∧ s.opposite.StandsOn second := by
  simp only [← IndexStep.ofLine?_eq_some_iff]
  constructor
  · exact exists_step_of_cancels
  · rintro ⟨s, hfirst, hsecond⟩
    simp [cancels, hfirst, hsecond]

/-! ### What cancelling keeps -/

namespace IndexStep

def isAbsentFrom (line : Text) : Bool := (ofLine? line).isNone

theorem filter_isAbsentFrom_cancelLines (ls : List Text) :
    (cancelLines ls).filter isAbsentFrom = ls.filter isAbsentFrom := by
  fun_induction cancelLines ls with
  | case1 => rfl
  | case2 line => rfl
  | case3 first second rest hcancels ih =>
    obtain ⟨s, hfirst, hsecond⟩ := exists_step_of_cancels hcancels
    rw [ih, List.filter_cons_of_neg (by simp [isAbsentFrom, hfirst]),
      List.filter_cons_of_neg (by simp [isAbsentFrom, hsecond])]
  | case4 first second rest hcancels ih =>
    rw [List.filter_cons (x := first), List.filter_cons (x := first), ih]

def count (s : IndexStep) (ls : List Text) : Nat := ls.countP (ofLine? · == some s)

def net (s : IndexStep) (ls : List Text) : Int := s.count ls - s.opposite.count ls

theorem count_cons (s : IndexStep) (l : Text) (ls : List Text) :
    s.count (l :: ls) = s.count ls + s.count [l] := by
  simp [count, List.countP_cons]

theorem net_cons (s : IndexStep) (l : Text) (ls : List Text) :
    s.net (l :: ls) = s.net ls + s.net [l] := by
  rw [net, net, net, count_cons, count_cons s.opposite]
  omega

theorem net_pair (s : IndexStep) {first second : Text} (h : cancels first second) :
    s.net [first] + s.net [second] = 0 := by
  obtain ⟨a, hfirst, hsecond⟩ := exists_step_of_cancels h
  simp only [net, count, List.countP_singleton, hfirst, hsecond]
  cases s <;> cases a <;> decide

theorem net_cancelLines (s : IndexStep) (ls : List Text) : s.net (cancelLines ls) = s.net ls := by
  fun_induction cancelLines ls with
  | case1 => rfl
  | case2 line => rfl
  | case3 first second rest hcancels ih =>
    have hpair := s.net_pair hcancels
    rw [ih, net_cons s first, net_cons s second]
    omega
  | case4 first second rest hcancels ih =>
    rw [net_cons, ih, net_cons s first (second :: rest)]

end IndexStep

/-- Marking lines and leaving them out is the greedy pass: of the lines, cut after each newline, two
that take opposite steps are dropped from the front and the rest goes on after them, any other
front line is kept. So all lines that take no step stay in order, and for each index register the
steps up less the steps down are as before. -/
theorem peephole_greedy (t : Text) :
    peephole t = (cancelLines t.lines).flatten ∧
      (∀ first second, cancels first second ↔
        ∃ s : IndexStep, s.StandsOn first ∧ s.opposite.StandsOn second) ∧
      (peephole t).lines = cancelLines t.lines ∧
      (peephole t).lines.Sublist t.lines ∧
      (peephole t).lines.filter IndexStep.isAbsentFrom = t.lines.filter IndexStep.isAbsentFrom ∧
      ∀ s : IndexStep, s.net (peephole t).lines = s.net t.lines := by
  have hlines := lines_peephole_eq t
  refine ⟨peephole_eq_flatten t, fun _ _ => cancels_iff_standsOn, hlines, ?_, ?_, fun s => ?_⟩
  · rw [hlines]
    exact cancelLines_sublist t.lines
  · rw [hlines, IndexStep.filter_isAbsentFrom_cancelLines]
  · rw [hlines, s.net_cancelLines]

end Stack6502
