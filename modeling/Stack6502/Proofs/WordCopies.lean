import Stack6502.Proofs.JumpSelection
import Stack6502.Proofs.SelectionPolicy
import Stack6502.Proofs.StackSimulation

/-!
# Copies of words

A word that is pushed and then popped is copied by a rule, byte by byte with the low byte first. The
two instructions on their own read both bytes before they write any. So the copies agree unless the
destination starts at the second byte of the source.
-/
namespace Stack6502

open Asm Layout Selection

/-! ### Selection with a single answer -/

theorem Candidate.isSome_keep {best : Option Candidate} {o : Option Fragment} (order : Nat)
    (h : best.isSome ∨ o.isSome) : (Candidate.keep best order o).isSome := by
  cases o with
  | none => exact h.resolve_right (by simp)
  | some f =>
    cases best with
    | none => rfl
    | some b =>
      simp only [Candidate.keep, Candidate.best]
      split <;> rfl

/-- Once a pattern offers something there is a best candidate. -/
theorem Considered.isSome {bids : List Bid} {best last : Option Candidate}
    (h : Considered bids best last)
    (hoffer : best.isSome ∨ ∃ bid ∈ bids, ∀ pool, (bid.1 pool).isSome) : last.isSome := by
  induction h with
  | nil best => simpa using hoffer
  | cons pool _ ih =>
    apply ih
    rcases hoffer with hbest | ⟨bid, hbid, hsome⟩
    · exact .inl (Candidate.isSome_keep _ (.inl hbest))
    · rcases List.mem_cons.mp hbid with rfl | hbid
      · exact .inl (Candidate.isSome_keep _ (.inr (hsome pool)))
      · exact .inr ⟨bid, hbid, hsome⟩

/-- Where idioms offer nothing and one rule alone applies, what it offers is selected. -/
theorem Catalog.IsSound.select_of_single {c : Catalog} (hc : c.IsSound) (hwindow : 0 ≤ c.window)
    (scope : Option Text) {code rest : List Instr} {x : Instr}
    (hreach : reach c.window.toNat code = x :: rest)
    (hidioms : ∀ i ∈ c.idioms, ∀ pool, i.offer? (x :: rest) pool = none) {r : Rule}
    (hr : r ∈ c.rules) (hsingle : ∀ r' ∈ c.rules, r'.Applies (x :: rest) → r' = r) {f : Fragment}
    (hoffer : ∀ pool, r.offer? (x :: rest) pool = some f) (s : Session) :
    ∃ pool, (c.select scope code).run.run s = (.ok (some f), { s with pool }) := by
  rcases select_cases hc hwindow scope code s with ⟨hnil, -⟩ | h
  · rw [hreach] at hnil
    cases hnil
  obtain ⟨x', rest', op, best, pool, hx', hop, hconsidered, hrun⟩ := h
  rw [hreach] at hx'
  cases hx'
  have hbids : ∀ bid ∈ c.bids op (x :: rest), ∀ pool, ∀ g ∈ bid.1 pool, g = f := by
    intro bid hbid pool g hg
    rcases List.mem_append.mp hbid with hbid | hbid
    · obtain ⟨i, hi, rfl⟩ := List.mem_map.mp hbid
      exact absurd hg (by simp [hidioms i.1 (List.fst_mem_of_mem_zipIdx hi)])
    · obtain ⟨p, hp, rfl⟩ := List.mem_map.mp hbid
      have happlies := (Option.mem_ite_none_right.mp hg).1
      have hpr : p.2 = r := hsingle p.2 (mem_of_mem_rulesAt hc.index hp) happlies
      simpa [hpr, hoffer, eq_comm] using hg
  have hsome : best.isSome := by
    have happlies := (Option.ite_none_right_eq_some.mp (hoffer .empty)).1
    have hstarts : r ∈ c.rules.filter (·.startsAt op) :=
      List.mem_filter.mpr ⟨hr, happlies.startsAt (hc.isWellFormed r hr) hop.1⟩
    rw [← map_rulesAt hc.index] at hstarts
    obtain ⟨p, hp, rfl⟩ := List.mem_map.mp hstarts
    refine hconsidered.isSome (.inr ⟨(p.2.offer? (x :: rest), c.idioms.length + p.1), ?_, ?_⟩)
    · exact List.mem_append_right _ (List.mem_map_of_mem hp)
    · exact fun pool => by simp [hoffer]
  obtain ⟨b, rfl⟩ := Option.isSome_iff_exists.mp hsome
  have hb : b.fragment = f := hconsidered.forall_of_forall hbids (by simp) b rfl
  exact ⟨pool, hb ▸ hrun⟩

/-! ### The rule for a pair of instructions -/

def Instr.wordCell? (x : Instr) : Option Cell :=
  match x.op with
  | .known .pushVarWord | .known .popVarWord => some (.named x.sym)
  | .known .pushMemW | .known .pushMemUW | .known .popMemWord => x.int?.map .memory
  | _ => none

namespace Assignment

def wordRules : List Rule := wordDests.flatMap fun d => wordSources.map (wordRule d)

theorem mem_rules_of_wordRules {r : Rule} (hr : r ∈ wordRules) : r ∈ rules :=
  List.mem_append_left _ (List.mem_append_right _ hr)

def wordPushes : List Opcode := [.pushVarWord, .pushMemW, .pushMemUW]

def wordPops : List Opcode := [.popVarWord, .popMemWord]

def copySource : Opcode → WordSource
  | .pushVarWord => wordSources[1]
  | _ => wordSources[2]

def copyDest : Opcode → WordDest
  | .popVarWord => wordDests[0]
  | _ => wordDests[1]

def copyRule (op op' : Opcode) : Rule := wordRule (copyDest op') (copySource op)

section

variable {op op' : Opcode} {x y : Instr} {k l : Cell} {rest : List Instr}

theorem exists_wordCell (L : Layout) (hop : op ∈ wordPushes ++ wordPops) (hx : x.IsWhole op) :
    ∃ k a, x.wordCell? = some k ∧ k.LiesAt L a ∧ ∀ st, x.site? L st = some ⟨.word, a⟩ := by
  simp only [wordPushes, wordPops, List.cons_append, List.nil_append, List.mem_cons,
    List.not_mem_nil, or_false] at hop
  rcases hop with rfl | rfl | rfl | rfl | rfl
  case inl | inr.inr.inr.inl =>
    exact ⟨.named x.sym, L.address x.sym, by simp [Instr.wordCell?, hx.1], .named L x.sym,
      fun st => by simp [Instr.site?, hx.1]⟩
  all_goals
    obtain ⟨a, ha⟩ := x.exists_int hx.2 hx.1 rfl
    exact ⟨.memory a, a.toInt, by simp [Instr.wordCell?, hx.1, ha], .memory L a,
      fun st => by simp [Instr.site?, hx.1, ha]⟩

def startsWith (op op' : Opcode) (r : Rule) : Bool :=
  r.seq.take 2 == [op, op'] || r.alt.take 2 == [op, op']

theorem filter_startsWith (hop : op ∈ wordPushes) (hop' : op' ∈ wordPops) :
    rules.filter (startsWith op op') = [copyRule op op'] := by
  simp only [wordPushes, wordPops, List.mem_cons, List.not_mem_nil, or_false] at hop hop'
  rcases hop with rfl | rfl | rfl <;> rcases hop' with rfl | rfl <;> rfl

theorem copyRule_mem (op op' : Opcode) : copyRule op op' ∈ wordRules := by
  have hdest : copyDest op' ∈ wordDests := by
    unfold copyDest
    split <;> exact List.getElem_mem _
  have hsource : copySource op ∈ wordSources := by
    unfold copySource
    split <;> exact List.getElem_mem _
  exact List.mem_flatMap.mpr ⟨_, hdest, List.mem_map_of_mem hsource⟩

theorem startsWith_of_applies {r : Rule} (hr : r ∈ rules) (hx : x.op = .known op)
    (hy : y.op = .known op') (h : r.Applies (x :: y :: rest)) : startsWith op op' r := by
  have hlong : ∀ r ∈ rules, 2 ≤ r.seq.length ∧ (r.alt ≠ [] → 2 ≤ r.alt.length) := by decide
  have htake : ∀ ops : List Opcode, 2 ≤ ops.length →
      ops.map .known <+: (x :: y :: rest).map (·.op) → ops.take 2 = [op, op'] := by
    intro ops hlen hops
    rcases ops with - | ⟨a, - | ⟨b, ops⟩⟩
    · simp at hlen
    · simp at hlen
    · simp only [List.map_cons, List.cons_prefix_cons, hx, hy, Coded.known.injEq] at hops
      simp [hops.1, hops.2.1]
  rw [startsWith, Bool.or_eq_true, beq_iff_eq, beq_iff_eq]
  rcases h with hseq | ⟨hne, halt⟩
  · exact .inl (htake r.seq (hlong r hr).1 hseq)
  · exact .inr (htake r.alt ((hlong r hr).2 hne) halt)

theorem run_copyDest (hop : op ∈ wordPops) (hx : x.IsWhole op)
    (hname : (Home.ofName x.sym).isRegister = false) (hk : x.wordCell? = some k) :
    ((copyDest op).place [x]).run = .ok (some (.cell k)) := by
  simp only [wordPops, List.mem_cons, List.not_mem_nil, or_false] at hop
  rcases hop with rfl | rfl
  · simp only [Instr.wordCell?, hx.1, Option.some.injEq] at hk
    simp [copyDest, wordDests, WordValue.ofName?, Home.ofName_eq_var hname, hk]
    rfl
  · simp only [Instr.wordCell?, hx.1] at hk
    obtain ⟨a, ha, rfl⟩ := Option.map_eq_some_iff.mp hk
    simp [copyDest, wordDests, Instr.integer, ha]
    rfl

def copyLines (k l : Cell) : List Line := [lda k.lo, sta l.lo, lda k.hi, sta l.hi]

theorem run_copySource (hop : op ∈ wordPushes) (hx : x.IsWhole op)
    (hname : (Home.ofName x.sym).isRegister = false) (hk : x.wordCell? = some k) :
    ((copySource op).store [x] (.cell l)).run = .ok (some (Code.each (copyLines k l))) := by
  simp only [wordPushes, List.mem_cons, List.not_mem_nil, or_false] at hop
  rcases hop with rfl | rfl | rfl
  · simp only [Instr.wordCell?, hx.1, Option.some.injEq] at hk
    simp [copySource, wordSources, WordValue.ofName?, Home.ofName_eq_var hname, hk]
    rfl
  all_goals
    simp only [Instr.wordCell?, hx.1] at hk
    obtain ⟨a, ha, rfl⟩ := Option.map_eq_some_iff.mp hk
    simp [copySource, wordSources, Instr.integer, ha]
    rfl

theorem copyRule_seq (hop : op ∈ wordPushes) (hop' : op' ∈ wordPops) :
    (copySource op).seq.length = 1 ∧ (copyDest op').seq = [op'] ∧
      ([op, op'] = (copyRule op op').seq ∨ [op, op'] = (copyRule op op').alt) := by
  simp only [wordPushes, wordPops, List.mem_cons, List.not_mem_nil, or_false] at hop hop'
  rcases hop with rfl | rfl | rfl <;> rcases hop' with rfl | rfl <;> decide

theorem offer?_copyRule (hop : op ∈ wordPushes) (hop' : op' ∈ wordPops) (hx : x.IsWhole op)
    (hy : y.IsWhole op') (hxname : (Home.ofName x.sym).isRegister = false)
    (hyname : (Home.ofName y.sym).isRegister = false) (hk : x.wordCell? = some k)
    (hl : y.wordCell? = some l) (pool : FloatPool) :
    (copyRule op op').offer? (x :: y :: rest) pool =
      some ⟨(copyRule op op').name, Code.each (copyLines k l), 2, false⟩ := by
  obtain ⟨hsource, hdest, hseq⟩ := copyRule_seq hop hop'
  have happlies : (copyRule op op').Applies (x :: y :: rest) := by
    have hops : [op, op'].map .known <+: (x :: y :: rest).map (·.op) := by simp [hx.1, hy.1]
    rcases hseq with hseq | halt
    · exact .inl (hseq ▸ hops)
    · exact .inr ⟨by simp [← halt], halt ▸ hops⟩
  have hsize : (copyRule op op').size = 2 := by simp [copyRule, Rule.size, wordRule, hsource, hdest]
  have hrun : (do
      let place ← (copyDest op').place [y]
      (copySource op).store [x] place : Reading Code).run =
        .ok (some (Code.each (copyLines k l))) := by
    rw [OptionT.run_bind, run_copyDest hop' hy hyname hl]
    exact run_copySource hop hx hxname hk
  rw [Rule.offer?, if_pos happlies, hsize]
  simp [Lowering.offer?, copyRule, wordRule, Lowering.reading, hsource, -OptionT.run_bind, hrun,
    Except.toOption]

end

end Assignment

namespace Idiom

/-- A table without entries for pops. -/
theorem popWidth?_of_eq_some {α : Type} (table : Coded Opcode → Option α)
    (htable : ∀ op ∈ [Opcode.popVarByte, .popMemByte, .popVarWord, .popMemWord],
      table (.known op) = none) {op : Coded Opcode} {a : α} (h : table op = some a) :
    popWidth? op = none := by
  unfold popWidth?
  split
  case h_5 => rfl
  all_goals
    rw [htable _ (by simp)] at h
    cases h

theorem popWidth?_of_inPlace {op : Coded Opcode} {width : Width} {c : Cell} {home : Home}
    {code : Code} (h : inPlace op width c home = some code) : popWidth? op = none := by
  refine popWidth?_of_eq_some (inPlace · width c home) ?_ h
  cases width with
  | byte => simp [inPlace, ByteOp.ofOpcode?]
  | word => simp [inPlace, WordOp.ofOpcode?]

theorem popWidth?_of_applyAt {load op : Coded Opcode} {home : Home} {p : Place} {c : Cell}
    {code : Code} (h : applyAt load op home p c = some code) : popWidth? op = none := by
  unfold applyAt at h
  split at h
  case h_1 | h_2 =>
    obtain ⟨hneg, -⟩ := Option.ite_none_right_eq_some.mp h
    obtain ⟨hop, -⟩ := Bool.and_eq_true_iff.mp hneg
    rw [of_decide_eq_true hop]
    rfl
  all_goals exact popWidth?_of_inPlace h

theorem popWidth?_of_elementWidth {op op' : Coded Opcode} (h : (elementWidth? op op').isSome) :
    popWidth? op = none := by
  obtain ⟨width, hwidth⟩ := Option.isSome_iff_exists.mp h
  exact popWidth?_of_eq_some (elementWidth? · op') (by simp [elementWidth?]) hwidth

/-- Idioms work on a value before they write it back. -/
theorem Lowers.second_not_pop {i : Idiom} (hi : i ∈ all) {x y : Instr} {rest : List Instr}
    {code : Code} (h : i.Lowers (x :: y :: rest) code) : popWidth? y.op = none := by
  obtain ⟨hlen, hp, lower, pool, hlower, hcode⟩ := h
  simp only [all, List.mem_cons, List.not_mem_nil, or_false] at hi
  rcases hi with rfl | rfl | rfl | rfl | rfl
  · cases hlower
    obtain ⟨z, rfl⟩ := List.length_eq_one_iff.mp (Nat.succ.inj (Nat.succ.inj hlen))
    exact popWidth?_of_applyAt (Except.ok.inj hcode)
  · cases hlower
    obtain ⟨z, rfl⟩ := List.length_eq_one_iff.mp (Nat.succ.inj (Nat.succ.inj hlen))
    obtain ⟨a, -, hcode⟩ := Reading.of_bind_eq_some hcode
    exact popWidth?_of_applyAt (Except.ok.inj hcode)
  · obtain ⟨o, z, rfl⟩ := List.length_eq_two.mp (Nat.succ.inj (Nat.succ.inj hlen))
    obtain ⟨s, hs⟩ := Option.isSome_iff_exists.mp (Except.ok.inj (Option.some.inj hp))
    simp only [step?, Option.bind_eq_bind, Option.bind_eq_some_iff, Option.ite_none_right_eq_some,
      Bool.and_eq_true, decide_eq_true_eq] at hs
    obtain ⟨width, hpush, -, -, -, -, ⟨⟨⟨⟨⟨-, hconst⟩, -⟩, -⟩, -⟩, -⟩, -⟩ := hs
    unfold operands at hpush hconst
    split at hpush
    · exact popWidth?_of_eq_some pushWidth? (by decide) hpush
    · exact popWidth?_of_eq_some constWidth? (by decide) (by simpa [*] using hconst)
  · obtain ⟨o, j, z, rfl⟩ := List.length_eq_three.mp (Nat.succ.inj (Nat.succ.inj hlen))
    have hp := Except.ok.inj (Option.some.inj hp)
    simp only [Bool.and_eq_true] at hp
    exact popWidth?_of_elementWidth hp.1.1.1.1
  · obtain ⟨o, j, z, rfl⟩ := List.length_eq_three.mp (Nat.succ.inj (Nat.succ.inj hlen))
    have hp := Except.ok.inj (Option.some.inj hp)
    simp only [Bool.and_eq_true] at hp
    exact popWidth?_of_elementWidth hp.1.1.1.1

/-- No idiom offers anything where a value is popped at once. -/
theorem offer?_of_pop {i : Idiom} (hi : i ∈ all) {x y : Instr} {rest : List Instr}
    (hy : (popWidth? y.op).isSome) (pool : FloatPool) : i.offer? (x :: y :: rest) pool = none := by
  have hspan : ∀ i ∈ all, 2 ≤ i.span := by decide
  by_contra hne
  obtain ⟨f, hf⟩ := Option.ne_none_iff_exists'.mp hne
  have hlowers := lowers_of_offer? hf
  obtain ⟨n, hn⟩ := Nat.exists_eq_add_of_le' (hspan i hi)
  rw [hn, List.take_succ_cons, List.take_succ_cons] at hlowers
  rw [hlowers.second_not_pop hi] at hy
  cases hy

end Idiom

/-! ### What is copied -/

theorem Memory.get_set (m : Memory) (a : Int) (w : Word) :
    Memory.get (Memory.set m a (.word w)) a .word = .word w := by
  simp [Memory.get, Memory.set, Memory.put, ofInt_ne_succ, Word.ofBytes_high_low]

section

variable {L : Layout} {k l : Cell} {a b : Int}

/-- The high byte is read after the low byte is written. -/
theorem run_copyLines (hk : k.LiesAt L a) (hl : l.LiesAt L b) (c : Cpu) :
    ∃ d, L.run (Assignment.copyLines k l) c = some d ∧
      d.mem = Memory.set c.mem b (.word (.ofBytes
        (Function.update c.mem (.ofInt 16 b) (c.mem (.ofInt 16 a)) (.ofInt 16 (a + 1)))
        (c.mem (.ofInt 16 a)))) := by
  simp [Assignment.copyLines, load_of_address (hk.lo _ _), load_of_address (hk.hi _ _),
    save_of_address (hl.lo _ _), save_of_address (hl.hi _ _), Memory.set, Memory.put]

theorem run_throughStack (hk : k.LiesAt L a) (hl : l.LiesAt L b)
    (hfree : ∀ r ∈ Site.words ⟨.word, a⟩ ++ Site.words ⟨.word, b⟩, OffStack r) (c : Cpu) :
    ∃ e, L.run ([lda k.lo, sta (low 0), lda k.hi, sta (high 0), dex] ++
        [inx, lda (low 0), sta l.lo, lda (high 0), sta l.hi]) c = some e ∧
      ∀ r, OffStack r → e.mem r = Memory.set c.mem b (Memory.get c.mem a .word) r := by
  have hhigh : OffStack (.ofInt 16 (a + 1)) := hfree _ (by simp [Site.words, Site.addresses])
  have hlow : OffStack (.ofInt 16 b) := hfree _ (by simp [Site.words, Site.addresses])
  have hslots := lowSlot_ne_highSlot c.x.isLt c.x.isLt
  simp [load_of_address (hk.lo _ _), load_of_address (hk.hi _ _), save_of_address (hl.lo _ _),
    save_of_address (hl.hi _ _), hhigh.ne_lowSlot c.x.isLt, (hlow.ne_highSlot c.x.isLt).symm,
    hslots]
  intro r hr
  simp [Memory.get, Memory.set, Memory.put, Function.update_apply, hr.ne_lowSlot c.x.isLt,
    hr.ne_highSlot c.x.isLt]

/-- The copy is the word unless the destination starts at the second byte of the source, which
then differs from the first. -/
theorem copied_eq_iff (m : Memory) :
    Entry.word (.ofBytes
        (Function.update m (.ofInt 16 b) (m (.ofInt 16 a)) (.ofInt 16 (a + 1)))
        (m (.ofInt 16 a))) = Memory.get m a .word ↔
      BitVec.ofInt 16 b ≠ BitVec.ofInt 16 (a + 1) ∨ m (.ofInt 16 a) = m (.ofInt 16 (a + 1)) := by
  rw [Memory.get, Entry.word.injEq]
  rcases eq_or_ne (BitVec.ofInt 16 b) (BitVec.ofInt 16 (a + 1)) with heq | hne
  · rw [heq, Function.update_self]
    refine ⟨fun h => .inr ?_, fun h => ?_⟩
    · simpa using congrArg Word.high h
    · rw [h.resolve_left (by simp)]
  · simp [hne, hne.symm]

end

section

variable {scope : Option Text} {op : Opcode} {x : Instr} {k : Cell}

theorem standalone?_push (hop : op ∈ Assignment.wordPushes) (hx : x.IsWhole op)
    (hname : (Home.ofName x.sym).isRegister = false) (hk : x.wordCell? = some k) (s : Session) :
    x.standalone? scope s =
      some ([[lda k.lo, sta (low 0), lda k.hi, sta (high 0), dex]], s) := by
  simp only [Assignment.wordPushes, List.mem_cons, List.not_mem_nil, or_false] at hop
  rcases hop with rfl | rfl | rfl
  · obtain rfl : Cell.named x.sym = k := by simpa [Instr.wordCell?, hx.1] using hk
    exact x.standalone?_of_variable hx.2 hname hx.1 rfl rfl rfl scope s
  all_goals
    obtain ⟨a, ha, rfl⟩ : ∃ a, x.int? = some a ∧ Cell.memory a = k := by
      simpa [Instr.wordCell?, hx.1] using hk
    exact x.standalone?_of_memory hx.1 ha rfl rfl scope s

theorem standalone?_pop (hop : op ∈ Assignment.wordPops) (hx : x.IsWhole op)
    (hname : (Home.ofName x.sym).isRegister = false) (hk : x.wordCell? = some k) (s : Session) :
    x.standalone? scope s =
      some ([[inx, lda (low 0), sta k.lo, lda (high 0), sta k.hi]], s) := by
  simp only [Assignment.wordPops, List.mem_cons, List.not_mem_nil, or_false] at hop
  rcases hop with rfl | rfl
  · obtain rfl : Cell.named x.sym = k := by simpa [Instr.wordCell?, hx.1] using hk
    exact x.standalone?_of_variable hx.2 hname hx.1 rfl rfl rfl scope s
  · obtain ⟨a, ha, rfl⟩ : ∃ a, x.int? = some a ∧ Cell.memory a = k := by
      simpa [Instr.wordCell?, hx.1] using hk
    exact x.standalone?_of_memory hx.1 ha rfl rfl scope s

end

open Assignment in
/-- Only the rule for the pair is asked, and idioms have nothing to offer. -/
theorem select_copy {window : Int} {cat : Catalog}
    (hcat : Catalog.make window Idiom.all rules = .ok cat) (hwindow : 2 ≤ window) {op op' : Opcode}
    (hop : op ∈ wordPushes) (hop' : op' ∈ wordPops) {x y : Instr} (hx : x.IsWhole op)
    (hy : y.IsWhole op') (rest : List Instr) (scope : Option Text) {f : Fragment}
    (hoffer : ∀ rest pool, (copyRule op op').offer? (x :: y :: rest) pool = some f) (s : Session) :
    ∃ pool, (cat.select scope (x :: y :: rest)).run.run s = (.ok (some f), { s with pool }) := by
  obtain ⟨hsound, rfl⟩ := Catalog.isSound_of_make hcat
  obtain ⟨-, -, hparts⟩ := Catalog.make_eq_ok_iff.mp hcat
  have hidioms : cat.idioms = Idiom.all := by rw [hparts]
  have hrules : cat.rules = rules := by rw [hparts]
  have hreach : reach cat.window.toNat (x :: y :: rest) =
      x :: y :: reach (cat.window.toNat - 1 - 1) rest := by
    rw [reach_cons (by omega) hx.2, reach_cons (by omega) hy.2]
  refine hsound.select_of_single (by omega) scope hreach ?_ ?_ ?_ (hoffer _) s
  · intro i hi pool
    rw [hidioms] at hi
    have hpops : ∀ op ∈ wordPops, (Idiom.popWidth? (.known op)).isSome := by decide
    exact Idiom.offer?_of_pop hi (hy.1 ▸ hpops op' hop') pool
  · rw [hrules]
    exact mem_rules_of_wordRules (copyRule_mem op op')
  · intro r hr happlies
    rw [hrules] at hr
    have hr' := List.mem_filter.mpr ⟨hr, startsWith_of_applies hr hx.1 hy.1 happlies⟩
    rw [filter_startsWith hop hop'] at hr'
    exact List.mem_singleton.mp hr'

open Assignment in
/-- A word is pushed and popped, with no operand that names a register and both of its places off
the evaluation stack. A rule is selected for the pair, and the two instructions have code on their
own. On their own they put the word into the destination. The rule does so unless the destination
starts at the second byte of the source and that byte differs from the first. Neither changes
anything else off the evaluation stack. -/
theorem wordCopy_moves_iff {window : Int} {cat : Catalog}
    (hcat : Catalog.make window Idiom.all rules = .ok cat) (hwindow : 2 ≤ window) {op op' : Opcode}
    (hop : op ∈ wordPushes) (hop' : op' ∈ wordPops) {x y : Instr} (hx : x.IsWhole op)
    (hy : y.IsWhole op') (hxname : (Home.ofName x.sym).isRegister = false)
    (hyname : (Home.ofName y.sym).isRegister = false) (rest : List Instr) (scope : Option Text)
    (session : Session) (L : Layout) {s t : Site} (hs : x.site? L [] = some s)
    (ht : y.site? L [] = some t) (hfree : ∀ r ∈ s.words ++ t.words, OffStack r) (c : Cpu) :
    ∃ r f pool ls d e, r ∈ wordRules ∧ r.offer? [x, y] pool = some f ∧
      (cat.select scope (x :: y :: rest)).run.run session = (.ok (some f), { session with pool }) ∧
      standaloneLines scope [x, y] session = some ls ∧
      L.run f.code.lines c = some d ∧ L.run ls c = some e ∧
      Memory.get e.mem t.address .word = Memory.get c.mem s.address .word ∧
      (Memory.get d.mem t.address .word = Memory.get c.mem s.address .word ↔
        BitVec.ofInt 16 t.address ≠ .ofInt 16 (s.address + 1) ∨
          c.mem (.ofInt 16 s.address) = c.mem (.ofInt 16 (s.address + 1))) ∧
      ∀ p, OffStack p → p ∉ t.words → d.mem p = c.mem p ∧ e.mem p = c.mem p := by
  obtain ⟨k, a, hk, hka, hsite⟩ := exists_wordCell L (List.mem_append_left _ hop) hx
  obtain ⟨l, b, hl, hlb, hsite'⟩ := exists_wordCell L (List.mem_append_right _ hop') hy
  obtain rfl : ⟨.word, a⟩ = s := Option.some.inj ((hsite []).symm.trans hs)
  obtain rfl : ⟨.word, b⟩ = t := Option.some.inj ((hsite' []).symm.trans ht)
  have hoffer : ∀ rest pool, (copyRule op op').offer? (x :: y :: rest) pool = some _ :=
    fun _ => offer?_copyRule hop hop' hx hy hxname hyname hk hl
  obtain ⟨pool, hselect⟩ := select_copy hcat hwindow hop hop' hx hy rest scope hoffer session
  obtain ⟨d, hd, hdmem⟩ := run_copyLines hka hlb c
  obtain ⟨e, he, hemem⟩ := run_throughStack hka hlb hfree c
  refine ⟨copyRule op op', _, pool, _, d, e, copyRule_mem op op', hoffer [] pool, hselect, ?_, hd,
    he, ?_, ?_, ?_⟩
  · simp [standaloneLines, standalone?_push hop hx hxname hk, standalone?_pop hop' hy hyname hl,
      Code.lines]
  · rw [Memory.get_congr fun r hr => hemem r (hfree r (List.mem_append_right _ hr))]
    exact Memory.get_set ..
  · rw [hdmem, Memory.get_set, copied_eq_iff]
  · intro p hp hout
    have hne : ∀ q ∈ Site.words ⟨.word, b⟩, q ≠ p := fun q hq heq => hout (heq ▸ hq)
    rw [hdmem, hemem p hp]
    exact ⟨Memory.set_of_ne hne, Memory.set_of_ne hne⟩

namespace Overlapping

def layout : Layout := ⟨fun _ => 0, fun _ c => c⟩

/-- Every byte of memory holds the low byte of its address. -/
def cpu : Cpu := ⟨0, 0xff, 0, 0xff, false, false, false, false, fun p => p.setWidth 8⟩

def push (a : Int64) : Instr := { op := .known .pushMemUW, arg := some (.int a) }

def pop (a : Int64) : Instr := { op := .known .popMemWord, arg := some (.int a) }

end Overlapping

open Overlapping Assignment in
/-- A word is moved down by one byte. -/
theorem wordCopy_moves_iff_down :
    ∃ r f pool ls d e, r ∈ wordRules ∧ r.offer? [push 0x1001, pop 0x1000] pool = some f ∧
      (Catalog.standard.select none [push 0x1001, pop 0x1000]).run.run .start =
        (.ok (some f), { Session.start with pool }) ∧
      standaloneLines none [push 0x1001, pop 0x1000] .start = some ls ∧
      layout.run f.code.lines cpu = some d ∧ layout.run ls cpu = some e ∧
      Memory.get e.mem 0x1000 .word = Memory.get cpu.mem 0x1001 .word ∧
      (Memory.get d.mem 0x1000 .word = Memory.get cpu.mem 0x1001 .word ↔
        BitVec.ofInt 16 0x1000 ≠ .ofInt 16 (0x1001 + 1) ∨
          cpu.mem (.ofInt 16 0x1001) = cpu.mem (.ofInt 16 (0x1001 + 1))) ∧
      ∀ p, OffStack p → p ∉ Site.words ⟨.word, 0x1000⟩ →
        d.mem p = cpu.mem p ∧ e.mem p = cpu.mem p := by
  have hs : (push 0x1001).site? layout [] = some ⟨.word, 0x1001⟩ := rfl
  have ht : (pop 0x1000).site? layout [] = some ⟨.word, 0x1000⟩ := rfl
  have hfree : ∀ r ∈ Site.words ⟨.word, 0x1001⟩ ++ Site.words ⟨.word, 0x1000⟩, OffStack r := by
    intro r hr
    rcases List.mem_append.mp hr with hr | hr
    · exact Site.IsFree.offStack (by decide) hr
    · exact Site.IsFree.offStack (by decide) hr
  have hx : (push 0x1001).IsWhole .pushMemUW := ⟨rfl, rfl⟩
  have hy : (pop 0x1000).IsWhole .popMemWord := ⟨rfl, rfl⟩
  exact wordCopy_moves_iff (Catalog.make_all Catalog.defaultWindow) (by decide) (by decide)
    (by decide) hx hy rfl rfl [] none .start layout hs ht hfree cpu

open Overlapping Assignment in
/-- A word that is moved up by one byte ends as two copies of its low byte. -/
theorem wordCopy_fails_up : ∃ f pool d,
    (Catalog.standard.select none [push 0x1000, pop 0x1001]).run.run .start =
      (.ok (some f), { Session.start with pool }) ∧
    layout.run f.code.lines cpu = some d ∧
    Memory.get d.mem 0x1001 .word ≠ Memory.get cpu.mem 0x1000 .word := by
  have hx : (push 0x1000).IsWhole .pushMemUW := ⟨rfl, rfl⟩
  have hy : (pop 0x1001).IsWhole .popMemWord := ⟨rfl, rfl⟩
  obtain ⟨pool, hselect⟩ := select_copy (Catalog.make_all Catalog.defaultWindow) (by decide)
    (by decide) (by decide) hx hy [] none
    (fun _ => offer?_copyRule (by decide) (by decide) hx hy rfl rfl rfl rfl) .start
  obtain ⟨d, hd, hdmem⟩ := run_copyLines (.memory layout 0x1000) (.memory layout 0x1001) cpu
  refine ⟨_, pool, d, hselect, hd, ?_⟩
  rw [hdmem]
  change Memory.get (Memory.set cpu.mem 0x1001 _) 0x1001 .word ≠ _
  rw [Memory.get_set]
  exact mt (copied_eq_iff cpu.mem).mp (by decide)

end Stack6502
