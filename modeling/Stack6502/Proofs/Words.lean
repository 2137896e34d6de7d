import Stack6502.Proofs.EmittedLines

/-!
# Words

Where no character reaches over, the characters of a text are those of its parts. So the words of a
text have the same characters for themselves, and words joined by spaces are found again. Likewise
a text that was trimmed has nothing to trim.
-/
namespace Stack6502.Text

/-! ### Characters of a text in parts -/

section Parts

/-- No character that starts before the text ends in it. -/
def IsSeam (t : Text) : Prop := ∀ b ∈ t.head?, isTail b = false

theorem more_of_lead {b low high : UInt8} {more : Nat} (h : lead b = some ⟨more, low, high⟩) :
    more = 1 ∨ more = 2 ∨ more = 3 := by
  unfold lead at h
  split_ifs at h
  all_goals
    cases h
    decide

/-- What is no continuation byte is in no range for what follows a first byte. -/
theorem range_of_isTail {b c low high : UInt8} {more : Nat}
    (h : lead b = some ⟨more, low, high⟩) (hc : isTail c = false) : ¬ (low ≤ c ∧ c ≤ high) := by
  obtain ⟨hlow, hhigh, -⟩ := of_lead_eq_some h
  rw [← Bool.not_eq_true, isTail_iff] at hc
  rw [UInt8.le_iff_toNat_le, UInt8.le_iff_toNat_le]
  omega

theorem firstChar?_append {u v : Text} (hu : u ≠ []) (hv : IsSeam v) :
    firstChar? (u ++ v) = firstChar? u := by
  obtain ⟨b, t, rfl⟩ := List.exists_cons_of_ne_nil hu
  by_cases hb : b < 0x80
  · simp [firstChar?, hb]
  cases hlead : lead b with
  | none => simp [firstChar?, hb, hlead]
  | some l =>
    obtain ⟨more, low, high⟩ := l
    cases v with
    | nil => rw [List.append_nil]
    | cons c v =>
      have hc : isTail c = false := hv c rfl
      have hrange := range_of_isTail hlead hc
      -- The first byte of `v` stands where one that continues the character would have to.
      obtain rfl | rfl | rfl := more_of_lead hlead
      · rcases t with - | ⟨d, t⟩
        · simp [firstChar?, hb, hlead, hrange]
        · simp [firstChar?, hb, hlead]
      · rcases t with - | ⟨d, - | ⟨e, t⟩⟩
        · cases v with
          | nil => simp [firstChar?, hb, hlead]
          | cons d v => simp [firstChar?, hb, hlead, hrange]
        · simp [firstChar?, hb, hlead, hc]
        · simp [firstChar?, hb, hlead]
      · rcases t with - | ⟨d, - | ⟨e, - | ⟨f, t⟩⟩⟩
        · rcases v with - | ⟨d, - | ⟨e, v⟩⟩
          · simp [firstChar?, hb, hlead]
          · simp [firstChar?, hb, hlead]
          · simp [firstChar?, hb, hlead, hrange]
        · cases v with
          | nil => simp [firstChar?, hb, hlead]
          | cons d v => simp [firstChar?, hb, hlead, hc]
        · simp [firstChar?, hb, hlead, hc]
        · simp [firstChar?, hb, hlead]

theorem piecesFrom_append {u v : Text} {skip : Nat} (hskip : skip ≤ u.length) (hv : IsSeam v) :
    piecesFrom skip (u ++ v) = piecesFrom skip u ++ pieces v := by
  fun_induction piecesFrom skip u with
  | case1 skip =>
    obtain rfl : skip = 0 := Nat.le_zero.mp hskip
    rfl
  | case2 skip b t ih =>
    rw [List.cons_append, piecesFrom]
    exact ih (by simpa using hskip)
  | case3 b t c n hfirst ih =>
    obtain ⟨rest, ht, rfl⟩ := of_firstChar?_eq_some hfirst
    have hlength := congrArg List.length ht
    rw [List.length_append, List.length_cons] at hlength
    have hfirst' := (firstChar?_append (List.cons_ne_nil b t) hv).trans hfirst
    rw [List.cons_append] at hfirst' ⊢
    simp only [piecesFrom, hfirst', List.cons_append]
    rw [ih (by omega)]
  | case4 b t hfirst ih =>
    have hfirst' := (firstChar?_append (List.cons_ne_nil b t) hv).trans hfirst
    rw [List.cons_append] at hfirst' ⊢
    simp only [piecesFrom, hfirst', List.cons_append]
    rw [ih (Nat.zero_le _)]

theorem pieces_append {u v : Text} (hv : IsSeam v) : pieces (u ++ v) = pieces u ++ pieces v :=
  piecesFrom_append (Nat.zero_le _) hv

theorem pieces_ne_nil {t : Text} (h : t ≠ []) : pieces t ≠ [] := by
  intro hnil
  have ht := ofPieces_pieces t
  rw [hnil] at ht
  exact h ht.symm

theorem pieces_cons_ascii {b : UInt8} (hb : b.toNat < 128) (t : Text) :
    pieces (b :: t) = .char (Char.ofNat b.toNat) :: pieces t := by
  have hlt : b < 0x80 := UInt8.lt_iff_toNat_lt.mpr hb
  have hfirst : firstChar? (b :: t) = some (Char.ofNat b.toNat, 1) := by
    unfold firstChar?
    exact if_pos hlt
  rw [pieces, piecesFrom, hfirst]
  rfl

theorem isSeam_cons_ascii {b : UInt8} (hb : b.toNat < 128) (t : Text) : IsSeam (b :: t) := by
  rintro c ⟨⟩
  rw [← Bool.not_eq_true, isTail_iff]
  omega

theorem mem_pieces_of_mem {t : Text} {b : UInt8} (hb : b.toNat < 128) (h : b ∈ t) :
    Piece.char (Char.ofNat b.toNat) ∈ pieces t := by
  obtain ⟨u, v, rfl⟩ := List.append_of_mem h
  rw [pieces_append (isSeam_cons_ascii hb v), pieces_cons_ascii hb]
  simp

theorem piecesFrom_eq_pieces_drop (skip : Nat) (t : Text) :
    piecesFrom skip t = pieces (t.drop skip) := by
  induction t generalizing skip with
  | nil =>
    rw [List.drop_nil]
    cases skip <;> rfl
  | cons b t ih =>
    cases skip with
    | zero => rfl
    | succ skip => exact ih skip

/-- A text from its first piece on. -/
theorem of_pieces_eq_cons {t : Text} {p : Piece} {ps : List Piece} (h : pieces t = p :: ps) :
    ∃ u, t = p.bytes ++ u ∧ pieces u = ps := by
  cases t with
  | nil => cases h
  | cons b t =>
    cases hfirst : firstChar? (b :: t) with
    | none =>
      rw [pieces, piecesFrom, hfirst] at h
      obtain ⟨rfl, hps⟩ := List.cons.inj h
      exact ⟨t, rfl, hps⟩
    | some found =>
      obtain ⟨c, n⟩ := found
      rw [pieces, piecesFrom, hfirst] at h
      obtain ⟨rfl, hps⟩ := List.cons.inj h
      exact ⟨t.drop (n - 1), eq_append_drop_of_firstChar? hfirst,
        (piecesFrom_eq_pieces_drop _ _).symm.trans hps⟩

/-- Cut between two pieces, a text has the pieces after the cut for itself. -/
theorem of_pieces_eq_append {t : Text} {ps qs : List Piece} (h : pieces t = ps ++ qs) :
    t = ofPieces ps ++ ofPieces qs ∧ pieces (ofPieces qs) = qs := by
  induction ps generalizing t with
  | nil =>
    rw [List.nil_append] at h
    rw [← h, ofPieces_pieces]
    exact ⟨rfl, rfl⟩
  | cons p ps ih =>
    obtain ⟨u, rfl, hu⟩ := of_pieces_eq_cons h
    obtain ⟨hsplit, hqs⟩ := ih hu
    refine ⟨?_, hqs⟩
    rw [hsplit]
    simp [ofPieces]

/-- If what follows the cut is a seam, it has those before it for itself as well. -/
theorem pieces_ofPieces {t : Text} {ps qs : List Piece} (h : pieces t = ps ++ qs)
    (hseam : IsSeam (ofPieces qs)) : pieces (ofPieces ps) = ps := by
  obtain ⟨hsplit, hqs⟩ := of_pieces_eq_append h
  rw [hsplit, pieces_append hseam, hqs] at h
  exact List.append_cancel_right h

end Parts

/-! ### Blanks -/

theorem isSeam_utf8EncodeChar_append (c : Char) (t : Text) :
    IsSeam (String.utf8EncodeChar c ++ t) := by
  have hbyte {n : Nat} (hn : n < 0x80 ∨ 0xc0 ≤ n ∧ n < 256) : isTail (UInt8.ofNat n) = false := by
    have hlt : n < 256 := by omega
    rw [← Bool.not_eq_true, isTail_iff, UInt8.toNat_ofNat_of_lt' hlt]
    omega
  unfold String.utf8EncodeChar
  dsimp only
  split_ifs with hone htwo hthree
  · rintro b ⟨⟩
    exact hbyte (.inl (by omega))
  · rintro b ⟨⟩
    exact hbyte (.inr (by omega))
  · rintro b ⟨⟩
    exact hbyte (.inr (by omega))
  · rintro b ⟨⟩
    exact hbyte (.inr (by omega))

/-- A blank is a character, so it starts anew. -/
theorem isSeam_of_isBlank {ps : List Piece} (h : ∀ p ∈ ps.head?, p.isBlank) :
    IsSeam (ofPieces ps) := by
  cases ps with
  | nil => rintro b ⟨⟩
  | cons p ps =>
    cases p with
    | char c => exact isSeam_utf8EncodeChar_append c _
    | stray b => exact absurd (h _ rfl) Bool.false_ne_true

/-! ### Runs -/

section Runs

variable {α : Type} {sep : α → Bool}

theorem runs_cons_of_sep {a : α} (ha : sep a) (l : List α) : runs sep (a :: l) = runs sep l := by
  rw [runs.eq_def]
  exact if_pos ha

theorem runs_append {run rest : List α} (hne : run ≠ []) (hrun : ∀ a ∈ run, sep a = false)
    (hrest : ∀ a ∈ rest.head?, sep a) : runs sep (run ++ rest) = run :: runs sep rest := by
  induction run with
  | nil => exact absurd rfl hne
  | cons a run ih =>
    obtain ⟨ha, hrun⟩ := List.forall_mem_cons.mp hrun
    cases run with
    | nil =>
      cases rest with
      | nil => simp [runs, ha]
      | cons b rest =>
        have hb : sep b := hrest b rfl
        simp [runs, ha, hb]
    | cons b run =>
      have hb : sep b = false := hrun b (by simp)
      have ih' := ih (by simp) hrun
      rw [List.cons_append] at ih' ⊢
      rw [List.cons_append, runs, ih']
      simp [ha, hb]

theorem head?_dropWhile (p : α → Bool) (l : List α) :
    ∀ a ∈ (l.dropWhile p).head?, p a = false := by
  intro a ha
  have hhead := List.head?_dropWhile_not p l
  rwa [Option.mem_def.mp ha] at hhead

/-- A list that does not start with a separator starts with a run. -/
theorem exists_run {a : α} (ha : sep a = false) (l : List α) : ∃ run rest, a :: l = run ++ rest ∧
    run ≠ [] ∧ (∀ c ∈ run, sep c = false) ∧ ∀ c ∈ rest.head?, sep c := by
  refine ⟨(a :: l).takeWhile (!sep ·), (a :: l).dropWhile (!sep ·),
    (List.takeWhile_append_dropWhile).symm, ?_, ?_, ?_⟩
  · simp [ha]
  · intro c hc
    simpa using List.mem_takeWhile_imp hc
  · intro c hc
    simpa using head?_dropWhile (!sep ·) (a :: l) c hc

/-- A run ends at a separator or with the list. -/
theorem of_mem_runs {l run : List α} (h : run ∈ runs sep l) :
    run ≠ [] ∧ (∀ a ∈ run, sep a = false) ∧
      ∃ front rest, l = front ++ (run ++ rest) ∧ ∀ a ∈ rest.head?, sep a := by
  induction hlength : l.length using Nat.strong_induction_on generalizing l with
  | _ n ih =>
    cases l with
    | nil => cases h
    | cons a l =>
      cases ha : sep a with
      | true =>
        rw [runs_cons_of_sep ha] at h
        obtain ⟨hne, hrun, front, rest, rfl, hrest⟩ := ih l.length (by simp [← hlength]) h rfl
        exact ⟨hne, hrun, a :: front, rest, rfl, hrest⟩
      | false =>
        obtain ⟨first, others, hsplit, hne, hfirst, hothers⟩ := exists_run ha l
        rw [hsplit] at h hlength ⊢
        rw [runs_append hne hfirst hothers] at h
        rcases List.mem_cons.mp h with rfl | h
        · exact ⟨hne, hfirst, [], others, rfl, hothers⟩
        · have hlt : others.length < n := by
            have := List.length_pos_iff.mpr hne
            rw [List.length_append] at hlength
            omega
          obtain ⟨hne', hrun, front, rest, rfl, hrest⟩ := ih others.length hlt h rfl
          exact ⟨hne', hrun, first ++ front, rest, (List.append_assoc ..).symm, hrest⟩

/-- A separator parts the runs. -/
theorem runs_append_cons {a : α} (ha : sep a) (l m : List α) :
    runs sep (l ++ a :: m) = runs sep l ++ runs sep m := by
  induction hlength : l.length using Nat.strong_induction_on generalizing l with
  | _ n ih =>
    cases l with
    | nil => exact runs_cons_of_sep ha m
    | cons b l =>
      cases hb : sep b with
      | true =>
        rw [List.cons_append, runs_cons_of_sep hb, runs_cons_of_sep hb,
          ih l.length (by simp [← hlength]) l rfl]
      | false =>
        obtain ⟨run, rest, hsplit, hne, hrun, hrest⟩ := exists_run hb l
        have hrest' : ∀ c ∈ (rest ++ a :: m).head?, sep c := by
          cases rest with
          | nil => simpa using ha
          | cons c rest => exact hrest
        have hlt : rest.length < n := by
          have := List.length_pos_iff.mpr hne
          rw [hsplit, List.length_append] at hlength
          omega
        rw [hsplit, List.append_assoc, runs_append hne hrun hrest', runs_append hne hrun hrest,
          ih rest.length hlt rest rfl, List.cons_append]

end Runs

/-! ### Words of a text -/

def IsWord (w : Text) : Prop := w ≠ [] ∧ ∀ p ∈ pieces w, p.isBlank = false

theorem isWord_of_mem_words {t w : Text} (h : w ∈ words t) : IsWord w := by
  obtain ⟨run, hrun, rfl⟩ := List.mem_map.mp h
  obtain ⟨hne, hvisible, front, rest, hsplit, hrest⟩ := of_mem_runs hrun
  obtain ⟨-, hrest'⟩ := of_pieces_eq_append hsplit
  have hpieces : pieces (ofPieces run) = run := pieces_ofPieces hrest' (isSeam_of_isBlank hrest)
  constructor
  · intro hnil
    rw [hnil] at hpieces
    exact hne hpieces.symm
  · rwa [hpieces]

@[simp] theorem words_nil : words [] = [] := rfl

theorem isSeam_space_cons (t : Text) : IsSeam (space :: t) := by
  rintro b ⟨⟩
  rfl

theorem pieces_space_cons (t : Text) : pieces (space :: t) = .char ' ' :: pieces t :=
  pieces_cons_ascii (by decide) t

theorem words_space_cons (t : Text) : words (space :: t) = words t := by
  rw [words, pieces_space_cons, runs_cons_of_sep rfl, words]

theorem words_append {w rest : Text} (hw : IsWord w) (hrest : ∀ b ∈ rest.head?, b = space) :
    words (w ++ rest) = w :: words rest := by
  have hne := pieces_ne_nil hw.1
  cases rest with
  | nil =>
    have hruns : runs Piece.isBlank (pieces w ++ []) = pieces w :: runs Piece.isBlank [] :=
      runs_append hne hw.2 (by simp)
    rw [List.append_nil] at hruns ⊢
    rw [words, hruns, List.map_cons, ofPieces_pieces]
    rfl
  | cons b rest =>
    obtain rfl := hrest b rfl
    have hblank : ∀ p ∈ (pieces (space :: rest)).head?, p.isBlank := by
      rw [pieces_space_cons]
      rintro p ⟨⟩
      rfl
    rw [words, pieces_append (isSeam_space_cons rest), runs_append hne hw.2 hblank, List.map_cons,
      ofPieces_pieces, words]

theorem IsWord.words_eq {w : Text} (hw : IsWord w) : words w = [w] := by
  have hwords : words (w ++ []) = w :: words [] := words_append hw (by simp)
  rwa [List.append_nil] at hwords

/-- A blank of ASCII parts the words. -/
theorem words_append_cons {b : UInt8} (hb : b.toNat < 128)
    (hblank : isBlank (Char.ofNat b.toNat)) (t u : Text) :
    words (t ++ b :: u) = words t ++ words u := by
  have hpiece : (Piece.char (Char.ofNat b.toNat)).isBlank := hblank
  rw [words, pieces_append (isSeam_cons_ascii hb u), pieces_cons_ascii hb,
    runs_append_cons hpiece, List.map_append]
  rfl

/-- Words with a space before each. -/
theorem words_flatMap_space {ws : List Text} (h : ∀ w ∈ ws, IsWord w) :
    words (ws.flatMap (space :: ·)) = ws := by
  induction ws with
  | nil => rfl
  | cons w ws ih =>
    obtain ⟨hw, hws⟩ := List.forall_mem_cons.mp h
    have hrest : ∀ b ∈ (ws.flatMap (space :: ·)).head?, b = space := by
      cases ws with
      | nil => simp
      | cons w ws => simp
    rw [List.flatMap_cons, List.cons_append, words_space_cons, words_append hw hrest, ih hws]

/-- Visible characters of ASCII make a word. -/
theorem isWord_of_visible {w : Text} (hne : w ≠ []) (h : ∀ b ∈ w, 0x20 < b.toNat ∧ b.toNat < 128) :
    IsWord w := by
  refine ⟨hne, fun p hp => ?_⟩
  rw [pieces_ascii fun b hb => (h b hb).2] at hp
  obtain ⟨b, hb, rfl⟩ := List.mem_map.mp hp
  exact isBlank_ascii b.toNat (h b hb).2 (h b hb).1

/-! ### Trimmed texts -/

section Trimmed

structure IsTrimmed (t : Text) : Prop where
  head : ∀ p ∈ (pieces t).head?, p.isBlank = false
  last : ∀ p ∈ (pieces t).getLast?, p.isBlank = false

theorem dropWhile_of_head? {α : Type} {p : α → Bool} {l : List α}
    (h : ∀ a ∈ l.head?, p a = false) : l.dropWhile p = l := by
  cases l with
  | nil => rfl
  | cons a l => simp [h a rfl]

variable {t w : Text}

theorem IsTrimmed.trim_eq (h : IsTrimmed t) : trim t = t := by
  have hlast : ∀ p ∈ (pieces t).reverse.head?, p.isBlank = false := by
    rw [List.head?_reverse]
    exact h.last
  rw [trim, dropWhile_of_head? h.head, dropWhile_of_head? hlast, List.reverse_reverse,
    ofPieces_pieces]

/-- The pieces of a text are blanks, those of the trimmed text, and blanks again. -/
theorem exists_trim (t : Text) : ∃ front middle back, pieces t = front ++ (middle ++ back) ∧
    trim t = ofPieces middle ∧ (∀ p ∈ front, p.isBlank) ∧ (∀ p ∈ back, p.isBlank) ∧
    (∀ p ∈ middle.head?, p.isBlank = false) ∧ ∀ p ∈ middle.getLast?, p.isBlank = false := by
  obtain ⟨rest, hrest⟩ : ∃ rest, rest = (pieces t).dropWhile Piece.isBlank := ⟨_, rfl⟩
  obtain ⟨middle, hmiddle⟩ : ∃ middle, middle = (rest.reverse.dropWhile Piece.isBlank).reverse :=
    ⟨_, rfl⟩
  obtain ⟨back, hback⟩ : ∃ back, back = (rest.reverse.takeWhile Piece.isBlank).reverse := ⟨_, rfl⟩
  have hsplit : rest = middle ++ back := by
    rw [hmiddle, hback, ← List.reverse_append, List.takeWhile_append_dropWhile,
      List.reverse_reverse]
  refine ⟨(pieces t).takeWhile Piece.isBlank, middle, back, ?_, ?_, ?_, ?_, ?_, ?_⟩
  · rw [← hsplit, hrest, List.takeWhile_append_dropWhile]
  · rw [trim, ← hrest, ← hmiddle]
  · exact fun p hp => List.mem_takeWhile_imp hp
  · intro p hp
    rw [hback, List.mem_reverse] at hp
    exact List.mem_takeWhile_imp hp
  · intro p hp
    refine head?_dropWhile Piece.isBlank (pieces t) p ?_
    rw [← hrest, hsplit]
    exact List.mem_head?_append_of_mem_head? hp
  · rw [hmiddle, List.getLast?_reverse]
    exact head?_dropWhile Piece.isBlank rest.reverse

theorem isTrimmed_trim (t : Text) : IsTrimmed (trim t) := by
  obtain ⟨front, middle, back, hsplit, htrim, -, hback, hhead, hlast⟩ := exists_trim t
  obtain ⟨-, hparts⟩ := of_pieces_eq_append hsplit
  have hpieces : pieces (trim t) = middle := by
    rw [htrim]
    exact pieces_ofPieces hparts
      (isSeam_of_isBlank fun p hp => hback p (List.mem_of_mem_head? hp))
  exact ⟨hpieces ▸ hhead, hpieces ▸ hlast⟩

theorem IsWord.isTrimmed (h : IsWord w) : IsTrimmed w :=
  ⟨fun p hp => h.2 p (List.mem_of_mem_head? hp), fun p hp => h.2 p (List.mem_of_mem_getLast? hp)⟩

theorem IsTrimmed.append_space (ht : IsTrimmed t) (hw : IsTrimmed w) (hne : t ≠ [])
    (hne' : w ≠ []) : IsTrimmed (t ++ space :: w) := by
  have hpieces : pieces (t ++ space :: w) = pieces t ++ [.char ' '] ++ pieces w := by
    rw [pieces_append (isSeam_space_cons w), pieces_space_cons, List.append_cons]
  constructor
  · rw [hpieces, List.append_assoc, List.head?_append_of_ne_nil _ (pieces_ne_nil hne)]
    exact ht.head
  · rw [hpieces, List.getLast?_append_of_ne_nil _ (pieces_ne_nil hne')]
    exact hw.last

/-- Words joined by spaces have none at their ends. -/
theorem IsTrimmed.append_words {ws : List Text} (ht : IsTrimmed t) (hne : t ≠ [])
    (hws : ∀ w ∈ ws, IsWord w) : IsTrimmed (t ++ ws.flatMap (space :: ·)) := by
  induction ws generalizing t with
  | nil => rwa [List.flatMap_nil, List.append_nil]
  | cons w ws ih =>
    obtain ⟨hw, hws⟩ := List.forall_mem_cons.mp hws
    have hstep := ht.append_space hw.isTrimmed hne hw.1
    have hall := ih hstep (by simp) hws
    rwa [List.append_assoc] at hall

end Trimmed

end Stack6502.Text
