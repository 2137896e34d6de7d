import Stack6502.Proofs.SharedLiterals

/-!
# Declarations and their storage

The declarations of a block are written in two passes. One gives a line to each scalar constant, in
the order of the declarations. The other reserves storage for all else, in the order of the types.
Each declaration is met by one of them, once.
-/
namespace Stack6502

/-! ### The order of storage -/

namespace Decl

def precedes (d e : Decl) : Bool := d.type.typeNumber ≤ e.type.typeNumber

variable {d e : Decl}

theorem precedes_iff : d.precedes e ↔ d.type.typeNumber ≤ e.type.typeNumber := decide_eq_true_iff

theorem precedes_trans (d e f : Decl) (hde : d.precedes e) (hef : e.precedes f) : d.precedes f :=
  precedes_iff.mpr (Int.le_trans (precedes_iff.mp hde) (precedes_iff.mp hef))

theorem precedes_total (d e : Decl) : d.precedes e || e.precedes d := by
  rw [Bool.or_eq_true, precedes_iff, precedes_iff]
  exact Int.le_total ..

end Decl

namespace Block

variable (b : Block)

theorem stored_eq : b.stored = (b.decls.filter (!·.isSymbol)).mergeSort Decl.precedes := rfl

theorem symbols_append_stored_perm : (b.decls.filter Decl.isSymbol ++ b.stored).Perm b.decls :=
  ((List.mergeSort_perm ..).append_left _).trans (List.filter_append_perm ..)

theorem pairwise_stored : b.stored.Pairwise fun d e => d.type.typeNumber ≤ e.type.typeNumber :=
  (List.pairwise_mergeSort Decl.precedes_trans Decl.precedes_total _).imp Decl.precedes_iff.mp

/-- Declarations of one type keep their order. -/
theorem filter_stored (n : Int) : b.stored.filter (·.type.typeNumber = n) =
    b.decls.filter fun d => d.type.typeNumber = n && !d.isSymbol := by
  rw [← List.filter_filter, stored_eq]
  generalize b.decls.filter (!·.isSymbol) = ds
  -- Alike in type, they are a sorted sublist, and sorting keeps such a sublist.
  have halike : (ds.filter (·.type.typeNumber = n)).Pairwise (Decl.precedes · ·) := by
    refine List.pairwise_of_forall_mem_list fun d hd e he => Decl.precedes_iff.mpr ?_
    simp only [List.mem_filter, decide_eq_true_eq] at hd he
    omega
  have hsublist := (List.sublist_mergeSort Decl.precedes_trans Decl.precedes_total halike
    List.filter_sublist).filter (·.type.typeNumber = n)
  rw [List.filter_filter] at hsublist
  simp only [Bool.and_self] at hsublist
  have hperm := (List.mergeSort_perm ds Decl.precedes).filter (·.type.typeNumber = n)
  exact (hsublist.eq_of_length hperm.length_eq.symm).symm

end Block

/-! ### Constants -/

/-- A literal that has a label is in the pool, which has only grown. -/
theorem FloatPool.of_add_eq_some {pool pool' : FloatPool} {x : Double} {found : Text}
    (h : pool.add x = (some found, pool')) : pool.values <+: pool'.values ∧
      ∃ k, pool'.values[k]? = some x ∧ found = label k := by
  have hnan := isNaN_of_add h
  by_cases hx : x ∈ pool.values
  · obtain ⟨k, hk, hadd⟩ := add_of_mem hnan hx
    rw [hadd] at h
    cases h
    exact ⟨List.prefix_rfl, k, hk, rfl⟩
  · rw [add_of_notMem hnan hx] at h
    cases h
    exact ⟨List.prefix_append .., pool.values.length, by simp, rfl⟩

namespace Assembly

/-- What a constant is equal to: an integer, or the label of its literal in the pool. -/
def IsSymbolValue (pool : FloatPool) (d : Decl) (value : Text) : Prop :=
  (d.type = .known .float ∧ ∃ v k, d.value = some v ∧ pool.values[k]? = some v.toDouble ∧
    value = FloatPool.label k) ∨
  (d.type ≠ .known .float ∧ ∃ n, d.value = some (.int n) ∧ value = hex n)

def IsConstantLine (pool : FloatPool) (d : Decl) (line : Text) : Prop :=
  ∃ value, IsSymbolValue pool d value ∧ line = "\t" ++ d.name ++ " = " ++ value ++ "\n"

theorem IsConstantLine.mono {pool pool' : FloatPool} {d : Decl} {line : Text}
    (h : IsConstantLine pool d line) (hpool : pool.values <+: pool'.values) :
    IsConstantLine pool' d line := by
  obtain ⟨value, ⟨hfloat, v, k, hv, hk, hvalue⟩ | hint, hline⟩ := h
  · obtain ⟨more, hmore⟩ := hpool
    refine ⟨value, .inl ⟨hfloat, v, k, hv, ?_, hvalue⟩, hline⟩
    obtain ⟨hlt, -⟩ := List.getElem?_eq_some_iff.mp hk
    rw [← hmore, List.getElem?_append_left hlt, hk]
  · exact ⟨value, .inr hint, hline⟩

theorem isConstantLine_of_symbolLine {d : Decl} {v : Value} {s t : Session} {line : Text}
    (hvalue : d.value = some v) (h : (symbolLine d v).run.run s = (.ok line, t)) :
    s.pool.values <+: t.pool.values ∧ IsConstantLine t.pool d line := by
  obtain ⟨value, rfl, ⟨hfloat, pool, hadd, rfl⟩ | ⟨hne, ⟨n, rfl, rfl⟩, rfl⟩⟩ :=
    of_symbolLine_eq_ok h
  · obtain ⟨hgrown, k, hk, rfl⟩ := FloatPool.of_add_eq_some hadd
    exact ⟨hgrown, _, .inl ⟨hfloat, v, k, hvalue, hk, rfl⟩, rfl⟩
  · exact ⟨List.prefix_rfl, _, .inr ⟨hne, n, hvalue, rfl⟩, rfl⟩

theorem isConstantLines_of_symbolTexts {ds : List Decl} {s t : Session} {text : Text}
    (h : (symbolTexts ds).run.run s = (.ok text, t)) :
    s.pool.values <+: t.pool.values ∧ ∃ lines, text = lines.flatten ∧
      List.Forall₂ (IsConstantLine t.pool) (ds.filter Decl.isSymbol) lines := by
  induction ds generalizing s text with
  | nil =>
    cases h
    exact ⟨List.prefix_rfl, [], rfl, .nil⟩
  | cons d ds ih =>
    rw [symbolTexts] at h
    split at h
    · rename_i v hsymbol hvalue
      obtain ⟨line, u, hline, h⟩ := of_run_bind_eq_ok h
      obtain ⟨rest, w, hrest, h⟩ := of_run_bind_eq_ok h
      obtain ⟨rfl, rfl⟩ := of_pure_eq_ok h
      obtain ⟨hfirst, hline⟩ := isConstantLine_of_symbolLine hvalue hline
      obtain ⟨hmore, lines, rfl, hlines⟩ := ih hrest
      rw [List.filter_cons_of_pos hsymbol]
      exact ⟨hfirst.trans hmore, line :: lines, rfl, .cons (hline.mono hmore) hlines⟩
    · rename_i hnot
      have hsymbol : ¬ d.isSymbol := by
        intro hsymbol
        obtain ⟨v, hv⟩ := Option.isSome_iff_exists.mp (d.of_isSymbol hsymbol).2
        exact hnot v hsymbol hv
      rw [List.filter_cons_of_neg hsymbol]
      exact ih h

end Assembly

/-! ### Storage -/

structure Decl.IsStoredAs (sets : Charsets) (heap : Heap) (d : Decl) (entry : Text) : Prop where
  lines : ∃ lines, d.storage sets heap = .ok lines ∧ entry = lines.flatMap DataLine.text
  name : d.name <+: entry

theorem DataLine.prefix_text_values (label directive : Text) (args : List Text)
    (comment : Option Text) : label <+: (DataLine.values label directive args comment).text := by
  simp only [DataLine.text, List.append_assoc]
  exact List.prefix_append ..

theorem DataLine.prefix_text_heading (name : Text) (comment : Option Text) :
    name <+: (DataLine.heading name comment).text := by
  simp only [DataLine.text, List.append_assoc]
  exact List.prefix_append ..

namespace Storage

def StartWith (name : Text) (lines : List DataLine) : Prop :=
  ∃ line rest, lines = line :: rest ∧ name <+: line.text

theorem StartWith.prefix_text {name : Text} {lines : List DataLine} (h : StartWith name lines) :
    name <+: lines.flatMap DataLine.text := by
  obtain ⟨line, rest, rfl, hline⟩ := h
  rw [List.flatMap_cons]
  exact hline.trans (List.prefix_append ..)

variable {name : Text} {lines : List DataLine}

theorem startWith_values (directive : Text) (args : List Text) (comment : Option Text)
    (rest : List DataLine) : StartWith name (.values name directive args comment :: rest) :=
  ⟨_, _, rfl, DataLine.prefix_text_values ..⟩

theorem startWith_heading (comment : Option Text) (rest : List DataLine) :
    StartWith name (.heading name comment :: rest) :=
  ⟨_, _, rfl, DataLine.prefix_text_heading ..⟩

theorem startWith_listLines (directive : Text) (args : List Text) :
    StartWith name (listLines name directive args) := by
  unfold listLines
  split
  · exact startWith_values ..
  · exact startWith_heading ..

theorem startWith_of_floatScalar {x : Double} (h : floatScalar name x = .ok lines) :
    StartWith name lines := by
  unfold floatScalar at h
  split at h
  · cases h
    exact startWith_values ..
  · split at h
    · cases h
    · rename_i hline
      cases h
      obtain ⟨packed, -, hline⟩ := bind_eq_ok_iff.mp hline
      cases hline
      exact startWith_values ..

theorem startWith_of_floatArray {xs : List Double} (h : floatArray name xs = .ok lines) :
    StartWith name lines := by
  unfold floatArray at h
  split at h
  · cases h
  · split at h
    · cases h
    · cases h
      exact startWith_heading ..

theorem startWith_of_intArray {type : DataType} {vs : List Int64}
    (h : intArray name type vs = .ok lines) : StartWith name lines := by
  unfold intArray at h
  split at h
  · cases h
  · cases h
    exact startWith_listLines ..

theorem startWith_of_string {sets : Charsets} {type : DataType} {str : Text}
    (h : string sets name type str = .ok lines) : StartWith name lines := by
  obtain ⟨bytes, -, h⟩ := bind_eq_ok_iff.mp h
  cases h
  exact startWith_heading ..

end Storage

open Storage in
theorem Decl.startWith_of_storage {sets : Charsets} {heap : Heap} {d : Decl}
    {lines : List DataLine} (h : d.storage sets heap = .ok lines) : StartWith d.name lines := by
  unfold Decl.storage at h
  split at h
  · obtain ⟨-, -, h⟩ := bind_eq_ok_iff.mp h
    cases h
  · rename_i type _
    cases type
    case float => exact startWith_of_floatScalar h
    case arrayF =>
      obtain ⟨p, -, h⟩ := bind_eq_ok_iff.mp h
      exact startWith_of_floatArray h
    case arrayUB | arrayB | arrayUW | arrayW =>
      obtain ⟨p, -, h⟩ := bind_eq_ok_iff.mp h
      exact startWith_of_intArray h
    case str | strP | strS | strPS =>
      obtain ⟨p, -, h⟩ := bind_eq_ok_iff.mp h
      exact startWith_of_string h
    all_goals
      dsimp only at h
      split at h
      · cases h
      · cases h
        exact startWith_values ..

namespace Assembly

theorem isStoredAs_of_variableTexts {sets : Charsets} {heap : Heap} {ds : List Decl} {text : Text}
    (h : variableTexts sets heap ds = .ok text) : ∃ entries, text = entries.flatten ∧
      List.Forall₂ (Decl.IsStoredAs sets heap) ds entries := by
  induction ds generalizing text with
  | nil =>
    cases h
    exact ⟨[], rfl, .nil⟩
  | cons d ds ih =>
    rw [variableTexts] at h
    split at h
    · cases h
    · rename_i lines hlines
      obtain ⟨rest, hrest, h⟩ := bind_eq_ok_iff.mp h
      cases h
      obtain ⟨entries, rfl, hentries⟩ := ih hrest
      have hprefix := (Decl.startWith_of_storage hlines).prefix_text
      exact ⟨_, rfl, .cons ⟨⟨lines, hlines, rfl⟩, hprefix⟩ hentries⟩

end Assembly

open Assembly in
/-- The two passes together write every declaration of a block once. The first writes the scalar
constants in their order. The second writes the storage of all others, in the order of their types
and, within a type, in the order of the declarations. -/
theorem Block.declarations_written_once {sets : Charsets} {heap : Heap} {b : Block}
    {s t : Session} {symbols storage : Text}
    (hsymbols : (symbolTexts b.decls).run.run s = (.ok symbols, t))
    (hstorage : variableTexts sets heap b.stored = .ok storage) :
    ∃ (constants reserved : List Decl) (lines entries : List Text),
      symbols = lines.flatten ∧ List.Forall₂ (IsConstantLine t.pool) constants lines ∧
      storage = entries.flatten ∧ List.Forall₂ (Decl.IsStoredAs sets heap) reserved entries ∧
      (constants ++ reserved).Perm b.decls ∧ constants = b.decls.filter Decl.isSymbol ∧
      reserved.Pairwise (fun d e => d.type.typeNumber ≤ e.type.typeNumber) ∧
      ∀ n : Int, reserved.filter (·.type.typeNumber = n) =
        b.decls.filter fun d => d.type.typeNumber = n && !d.isSymbol := by
  obtain ⟨-, lines, hlines, hconstants⟩ := isConstantLines_of_symbolTexts hsymbols
  obtain ⟨entries, hentries, hreserved⟩ := isStoredAs_of_variableTexts hstorage
  exact ⟨_, _, lines, entries, hlines, hconstants, hentries, hreserved,
    b.symbols_append_stored_perm, rfl, b.pairwise_stored, b.filter_stored⟩

open Assembly in
theorem Block.declarations_written_once_mixed :
    let w : Decl := ⟨"w", .known .uword, none, 0, false⟩
    let border : Decl := ⟨"border", .known .uword, some (.int 0xd020), 0, true⟩
    let t : Decl := ⟨"t", .known .str, some (.int 1), 4, true⟩
    let half : Decl := ⟨"half", .known .float, some (.float ⟨0x3fe0000000000000⟩), 0, true⟩
    let k : Decl := ⟨"k", .known .uword, none, 0, true⟩
    let b : Block := ⟨"main", "main", 0, [w, border, t, half, k], []⟩
    ∃ (constants reserved : List Decl) (lines entries : List Text),
      Text.ofString "\tborder = $d020\n\thalf = tg_const_float_0\n" = lines.flatten ∧
      List.Forall₂ (IsConstantLine ⟨[⟨0x3fe0000000000000⟩]⟩) constants lines ∧
      Text.ofString "w\t.word  $00\nk\t.word  $00\nt\t; str \"go\"\n\t.byte  $47, $4f, $00\n" =
        entries.flatten ∧
      List.Forall₂ (Decl.IsStoredAs ⟨.petscii, .screencodes⟩ [(4, ⟨"go", [], []⟩)]) reserved
        entries ∧
      (constants ++ reserved).Perm b.decls ∧ constants = [border, half] ∧
      reserved.filter (·.type.typeNumber = 2) = [w, k] := by
  intro w border t half k b
  have hsymbols : (symbolTexts b.decls).run.run .start =
      (.ok "\tborder = $d020\n\thalf = tg_const_float_0\n",
        { Session.start with pool := ⟨[⟨0x3fe0000000000000⟩]⟩ }) := rfl
  have hstored : b.stored = [w, k, t] := by
    have hfilter : b.decls.filter (!·.isSymbol) = [w, t, k] := rfl
    have htypes : w.precedes t ∧ ¬ t.precedes k ∧ w.precedes k := by decide
    rw [Block.stored_eq, hfilter]
    simp [List.mergeSort, List.MergeSort.Internal.splitInTwo, htypes]
  have hstorage : variableTexts ⟨.petscii, .screencodes⟩ [(4, ⟨"go", [], []⟩)] b.stored =
      .ok "w\t.word  $00\nk\t.word  $00\nt\t; str \"go\"\n\t.byte  $47, $4f, $00\n" := by
    rw [hstored]
    decide +kernel
  obtain ⟨constants, reserved, lines, entries, hlines, hconstants, hentries, hreserved, hperm, rfl,
    -, htype⟩ := Block.declarations_written_once hsymbols hstorage
  exact ⟨_, reserved, lines, entries, hlines, hconstants, hentries, hreserved, hperm, rfl, htype 2⟩

end Stack6502
