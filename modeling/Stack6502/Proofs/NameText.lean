import Stack6502.Program.Naming

/-!
# The texts of names

What the steps of renaming do to the bytes of a name: marks are replaced, dots become underscores
or are kept, dashes go.
-/
namespace Stack6502

namespace Text

theorem after?_eq_some_iff {start t rest : Text} :
    after? start t = some rest ↔ t = start ++ rest := by
  induction start generalizing t with
  | nil => simp [after?]
  | cons a start ih =>
    cases t with
    | nil => simp [after?]
    | cons b t =>
      rw [after?]
      by_cases hab : a = b
      · simp [hab, ih]
      · simp [hab, Ne.symm hab]

theorem startsWith_iff {start t : Text} : startsWith start t ↔ start <+: t := by
  simp only [startsWith, Option.isSome_iff_exists, after?_eq_some_iff]
  exact ⟨fun ⟨rest, h⟩ => ⟨rest, h.symm⟩, fun ⟨rest, h⟩ => ⟨rest, h.symm⟩⟩

section Replace

variable {old new t : Text}

theorem replaceFrom_eq_drop (skip : Nat) (t : Text) :
    replaceFrom old new skip t = replaceAll old new (t.drop skip) := by
  induction skip generalizing t with
  | zero => rfl
  | succ skip ih =>
    cases t with
    | nil => rfl
    | cons b t => exact ih t

theorem replaceAll_append (hold : old ≠ []) (rest : Text) :
    replaceAll old new (old ++ rest) = new ++ replaceAll old new rest := by
  obtain ⟨b, tail, rfl⟩ := List.exists_cons_of_ne_nil hold
  have hstarts : startsWith (b :: tail) (b :: (tail ++ rest)) :=
    startsWith_iff.mpr ⟨rest, rfl⟩
  rw [replaceAll, List.cons_append, replaceFrom, if_pos hstarts, replaceFrom_eq_drop]
  simp

theorem replaceAll_cons {b : UInt8} (h : ¬ old <+: b :: t) :
    replaceAll old new (b :: t) = b :: replaceAll old new t := by
  rw [replaceAll, replaceFrom, if_neg (mt startsWith_iff.mp h)]
  rfl

/-- Replacing goes along the text, past an occurrence or past one byte at a time. -/
theorem replaceAll_induction {P : Text → Text → Prop} (hold : old ≠ []) (hnil : P [] [])
    (hfound : ∀ rest, P rest (replaceAll old new rest) →
      P (old ++ rest) (new ++ replaceAll old new rest))
    (hother : ∀ b rest, ¬ old <+: b :: rest → P rest (replaceAll old new rest) →
      P (b :: rest) (b :: replaceAll old new rest)) (t : Text) : P t (replaceAll old new t) := by
  induction hn : t.length using Nat.strongRecOn generalizing t with
  | ind n ih =>
    cases t with
    | nil => exact hnil
    | cons b t =>
      by_cases hstarts : old <+: b :: t
      · obtain ⟨rest, hrest⟩ := hstarts
        have hlt : rest.length < n := by
          have hlen := congrArg List.length hrest
          have hpos := List.length_pos_iff.mpr hold
          rw [List.length_append] at hlen
          omega
        rw [← hrest, replaceAll_append hold]
        exact hfound rest (ih _ hlt rest rfl)
      · rw [replaceAll_cons hstarts]
        have hlt : t.length < n := by
          rw [← hn, List.length_cons]
          omega
        exact hother b t hstarts (ih _ hlt t rfl)

/-- A byte stays unless it belongs to an occurrence, and then the replacement is there. -/
theorem mem_replaceAll (hold : old ≠ []) {b : UInt8} (hb : b ∈ t) :
    b ∈ replaceAll old new t ∨ b ∈ old ∧ new ⊆ replaceAll old new t := by
  revert hb
  apply replaceAll_induction hold (P := fun t r => b ∈ t → b ∈ r ∨ b ∈ old ∧ new ⊆ r)
  · simp
  · intro rest ih hb
    rcases List.mem_append.mp hb with hb | hb
    · exact .inr ⟨hb, List.subset_append_left ..⟩
    · rcases ih hb with hmem | ⟨hmem, -⟩
      · exact .inl (List.mem_append_right _ hmem)
      · exact .inr ⟨hmem, List.subset_append_left ..⟩
  · intro c rest _ ih hb
    rcases List.mem_cons.mp hb with rfl | hb
    · exact .inl (List.mem_cons_self ..)
    · rcases ih hb with hmem | ⟨hmem, hnew⟩
      · exact .inl (List.mem_cons_of_mem _ hmem)
      · exact .inr ⟨hmem, fun b hb => List.mem_cons_of_mem _ (hnew hb)⟩

theorem mem_replaceAll_of_notMem {b : UInt8} (hb : b ∈ t) (hold : b ∉ old) (hne : old ≠ []) :
    b ∈ replaceAll old new t :=
  (mem_replaceAll hne hb).resolve_right fun h => hold h.1

theorem replaceAll_of_not_infix (h : ¬ old <:+: t) : replaceAll old new t = t := by
  have hold : old ≠ [] := fun hnil => h (hnil ▸ List.nil_infix)
  revert h
  apply replaceAll_induction hold (P := fun t r => ¬ old <:+: t → r = t)
  · exact fun _ => rfl
  · intro rest _ h
    exact absurd (List.prefix_append old rest).isInfix h
  · intro b rest _ ih h
    rw [ih fun hrest => h (List.infix_cons hrest)]

theorem replaceAll_of_notMem {b : UInt8} (hb : b ∈ old) (ht : b ∉ t) :
    replaceAll old new t = t :=
  replaceAll_of_not_infix fun h => ht (h.subset hb)

section Count

variable {b : UInt8} (hold : old ≠ []) (hnew : b ∉ new)
include hold hnew

theorem count_replaceAll_le (t : Text) : (replaceAll old new t).count b ≤ t.count b := by
  apply replaceAll_induction hold (P := fun t r => r.count b ≤ t.count b)
  · exact Nat.le_refl _
  · intro rest ih
    rw [List.count_append, List.count_append, List.count_eq_zero_of_not_mem hnew]
    omega
  · intro c rest _ ih
    rw [List.count_cons, List.count_cons]
    omega

theorem notMem_replaceAll (ht : b ∉ t) : b ∉ replaceAll old new t := by
  have hle := count_replaceAll_le hold hnew t
  rw [List.count_eq_zero_of_not_mem ht] at hle
  exact List.count_eq_zero.mp (Nat.le_zero.mp hle)

/-- Where there is an occurrence its bytes become fewer. -/
theorem count_replaceAll_lt (hb : b ∈ old) (h : old <:+: t) :
    (replaceAll old new t).count b < t.count b := by
  have hpos : 0 < old.count b := List.count_pos_iff.mpr hb
  revert h
  apply replaceAll_induction hold (P := fun t r => old <:+: t → r.count b < t.count b)
  · intro h
    exact absurd (List.infix_nil.mp h) hold
  · intro rest _ _
    have hle := count_replaceAll_le hold hnew rest
    rw [List.count_append, List.count_append, List.count_eq_zero_of_not_mem hnew]
    omega
  · intro c rest hother ih h
    have hlt := ih ((List.infix_cons_iff.mp h).resolve_left hother)
    rw [List.count_cons, List.count_cons]
    omega

end Count

/-- Nothing is replaced across a byte that does not belong to occurrences. -/
theorem replaceAll_append_cons {sep : UInt8} (hold : old ≠ []) (hsep : sep ∉ old) (t u : Text) :
    replaceAll old new (t ++ sep :: u) = replaceAll old new t ++ sep :: replaceAll old new u := by
  have hstays {v : Text} (h : old <+: v ++ sep :: u) : old <+: v := by
    rcases List.prefix_or_prefix_of_prefix h (List.prefix_append v _) with hv | ⟨w, rfl⟩
    · exact hv
    · cases w with
      | nil => exact (List.append_nil v).symm ▸ List.prefix_rfl
      | cons c w =>
        obtain ⟨rfl, -⟩ := List.cons_prefix_cons.mp ((List.prefix_append_right_inj v).mp h)
        simp at hsep
  apply replaceAll_induction hold
    (P := fun t r => replaceAll old new (t ++ sep :: u) = r ++ sep :: replaceAll old new u)
  · exact replaceAll_cons fun h => hold (List.prefix_nil.mp (hstays h))
  · intro rest ih
    rw [List.append_assoc, replaceAll_append hold, ih, List.append_assoc]
  · intro b rest hother ih
    have hcons : ¬ old <+: b :: (rest ++ sep :: u) := fun h => hother (hstays (v := b :: rest) h)
    rw [List.cons_append, replaceAll_cons hcons, ih, List.cons_append]

end Replace

theorem cut_of_notMem {sep : UInt8} {t : Text} (h : sep ∉ t) : cut sep t = (t, none) := by
  have hall : ∀ b ∈ t, (b != sep) = true := fun b hb => bne_iff_ne.mpr fun heq => h (heq ▸ hb)
  have hdrop : (t ++ []).dropWhile (· != sep) = [].dropWhile (· != sep) :=
    List.dropWhile_append_of_pos hall
  rw [List.append_nil] at hdrop
  rw [cut, hdrop]
  rfl

theorem cut_append {sep : UInt8} {t : Text} (h : sep ∉ t) (rest : Text) :
    cut sep (t ++ sep :: rest) = (t, some rest) := by
  have hall : ∀ b ∈ t, (b != sep) = true := fun b hb => bne_iff_ne.mpr fun heq => h (heq ▸ hb)
  rw [cut, List.dropWhile_append_of_pos hall, List.takeWhile_append_of_pos hall]
  simp

end Text

namespace Naming

/-- Without opening marks only closing marks are dropped. -/
theorem dropMarks_of_notMem {name : Text} (h : Text.byte '<' ∉ name) :
    dropMarks name = Text.replaceAll ">>>" "" name := by
  have hmem : Text.byte '<' ∈ Text.ofString "<<<" := by decide
  rw [dropMarks, Text.replaceAll_of_notMem hmem h]

/-- An opening bracket stays, or else the marks that it is part of leave a letter. -/
theorem mem_dropMarks_of_mem {name : Text} (h : Text.byte '<' ∈ name) :
    Text.byte '<' ∈ dropMarks name ∨ Text.byte 't' ∈ dropMarks name := by
  have hopening : Text.byte '<' ∈ Text.replaceAll "<<<" "tg_" name ∨
      Text.byte '<' ∈ Text.ofString "<<<" ∧
        Text.ofString "tg_" ⊆ Text.replaceAll "<<<" "tg_" name :=
    Text.mem_replaceAll (by decide) h
  rcases hopening with hmem | ⟨-, hsubset⟩
  · exact .inl (Text.mem_replaceAll_of_notMem hmem (by decide) (by decide))
  · have hmem : Text.byte 't' ∈ Text.replaceAll "<<<" "tg_" name := hsubset (by decide)
    exact .inr (Text.mem_replaceAll_of_notMem hmem (by decide) (by decide))

/-- A dot parts the marks on its two sides. -/
theorem dropMarks_append_dot (s t : Text) :
    dropMarks (s ++ dot :: t) = dropMarks s ++ dot :: dropMarks t := by
  rw [dropMarks, Text.replaceAll_append_cons (by decide) (by decide),
    Text.replaceAll_append_cons (by decide) (by decide)]
  rfl

theorem dot_notMem_dropMarks {name : Text} (h : dot ∉ name) : dot ∉ dropMarks name :=
  Text.notMem_replaceAll (by decide) (by decide) (Text.notMem_replaceAll (by decide) (by decide) h)

theorem dot_notMem_flatten (name : Text) : dot ∉ flatten name := by
  intro h
  obtain ⟨b, -, hb⟩ := List.mem_map.mp h
  split at hb
  · exact absurd hb (by decide)
  · simp_all

theorem flatten_of_notMem {name : Text} (h : dot ∉ name) : flatten name = name := by
  have hsame : ∀ b ∈ name, (if b == dot then Text.byte '_' else b) = b := by
    intro b hb
    have hne : b ≠ dot := fun heq => h (heq ▸ hb)
    simp [hne]
  rw [flatten, List.map_congr_left hsame]
  exact List.map_id _

theorem mem_flatten_of_mem {name : Text} (h : dot ∈ name) : Text.byte '_' ∈ flatten name :=
  List.mem_map.mpr ⟨dot, h, rfl⟩

theorem flattenForeign_of_notMem {name : Text} (h : dot ∉ name) : flattenForeign name = name := by
  rw [flattenForeign, Text.cut_of_notMem h]

theorem flattenForeign_append {scope : Text} (h : dot ∉ scope) (rest : Text) :
    flattenForeign (scope ++ dot :: rest) = scope ++ dot :: flatten rest := by
  rw [flattenForeign, Text.cut_append h]
  exact List.append_assoc ..

theorem mem_flattenForeign_of_mem {name : Text} (h : dot ∈ name) : dot ∈ flattenForeign name := by
  obtain ⟨scope, rest, rfl, hscope⟩ := List.eq_append_cons_of_mem h
  rw [flattenForeign_append hscope]
  simp

end Naming

end Stack6502
