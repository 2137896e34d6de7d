import Stack6502.Proofs.AssembledText

/-!
# Code refers to literals already collected

Symbols and the code of instructions ask for labels once more. Since all literals of the program
are in the pool by then, each request is answered from the pool, and the pool stays as it is, even
where the code asked for is not taken in the end.
-/
namespace Stack6502

/-- With `pool` in the session, the computation leaves it there, and what it yields has the
property. -/
def Keeps {ε α : Type} (pool : FloatPool) (m : ExceptT ε (StateM Session) α) (P : α → Prop) :
    Prop :=
  ∀ s : Session, s.pool = pool → (m.run.run s).2.pool = pool ∧ ∀ a, (m.run.run s).1 = .ok a → P a

namespace Keeps

variable {ε α β : Type} {pool : FloatPool} {P : α → Prop} {Q : β → Prop}

theorem pure {a : α} (h : P a) : Keeps pool (Pure.pure a : ExceptT ε (StateM Session) α) P := by
  intro s hs
  refine ⟨hs, fun b hb => ?_⟩
  cases hb
  exact h

theorem throw (e : ε) : Keeps pool (MonadExcept.throw e : ExceptT ε (StateM Session) α) P :=
  fun _ hs => ⟨hs, fun _ hb => by cases hb⟩

theorem bind {m : ExceptT ε (StateM Session) α} {f : α → ExceptT ε (StateM Session) β}
    (hm : Keeps pool m P) (hf : ∀ a, P a → Keeps pool (f a) Q) : Keeps pool (m >>= f) Q := by
  intro s hs
  obtain ⟨hpool, hP⟩ := hm s hs
  rw [ExceptT.run_bind, StateT.run_bind]
  cases hrun : m.run.run s with
  | mk r t =>
    rw [hrun] at hpool hP
    cases r with
    | error e => exact throw e t hpool
    | ok a => exact hf a (hP a rfl) t hpool

theorem adapt {ε' : Type} {m : ExceptT ε (StateM Session) α} (hm : Keeps pool m P) (f : ε → ε') :
    Keeps pool (m.adapt f) P := by
  intro s hs
  refine ⟨(hm s hs).1, fun a ha => (hm s hs).2 a ?_⟩
  exact congrArg Prod.fst (adapt_eq_ok_iff.mp (Prod.ext ha rfl))

theorem mono {P' : α → Prop} {m : ExceptT ε (StateM Session) α} (hm : Keeps pool m P)
    (h : ∀ a, P a → P' a) : Keeps pool m P' :=
  fun s hs => ⟨(hm s hs).1, fun a ha => h a ((hm s hs).2 a ha)⟩

end Keeps

/-! ### Patterns -/

def loadLiteral (k : Nat) : Code :=
  Code.each [Asm.lda (.lowOf (.name (FloatPool.label k))),
    Asm.ldy (.highOf (.name (FloatPool.label k)))]

/-- The code starts with the address of the literal that is pushed, if one is. -/
def LoadsLiterals (pool : FloatPool) (piece : List Instr) (code : Code) : Prop :=
  ∀ x ∈ piece, x.is .pushFloat → ∃ v k, x.arg = some v ∧
    pool.values[k]? = some v.toDouble ∧ loadLiteral k <+: code

def Lowering.Shares (pool : FloatPool) (lowering : Option Lowering) (w : List Instr) : Prop :=
  ∀ lower, lowering = some lower → (lower w pool).2 = pool ∧
    ∀ code, (lower w pool).1 = .ok (some code) → LoadsLiterals pool w code

namespace Selection

section Search

variable {pool : FloatPool} {w : List Instr}

theorem ask_keeps (name : Text) {lowering : Option Lowering}
    (h : Lowering.Shares pool lowering w) : Keeps pool (ask name lowering w) fun o =>
      ∀ code, o = some code → LoadsLiterals pool w code := by
  cases lowering with
  | none => exact .throw _
  | some lower =>
    obtain ⟨hpool, hcode⟩ := h lower rfl
    intro s hs
    have hrun : (ask name (some lower) w).run.run s =
      ((lower w s.pool).1, { s with pool := (lower w s.pool).2 }) := rfl
    rw [hrun, hs]
    refine ⟨hpool, ?_⟩
    rintro o ho code rfl
    exact hcode code ho

def BestLoads (pool : FloatPool) (w : List Instr) (best : Option Candidate) : Prop :=
  ∀ b ∈ best, LoadsLiterals pool (w.take b.fragment.size) b.fragment.code

theorem consider_keeps (name : Text) {lowering : Option Lowering} {n : Nat}
    (h : Lowering.Shares pool lowering (w.take n)) (order : Nat) {best : Option Candidate}
    (hbest : BestLoads pool w best) :
    Keeps pool (consider name lowering (w.take n) order best) (BestLoads pool w) := by
  refine (ask_keeps name h).bind fun o ho => ?_
  cases o with
  | none => exact .pure hbest
  | some code =>
    refine .pure fun b hb => ?_
    rcases Candidate.mem_best hb with rfl | hb
    · have hpiece : w.take (w.take n).length = w.take n := by simp
      dsimp only
      rw [hpiece]
      exact ho code rfl
    · exact hbest b hb

theorem tryIdioms_keeps {idioms : List (Idiom × Nat)}
    (h : ∀ i ∈ idioms, ∀ p, i.1.predicate = some p → i.1.span ≤ w.length →
      p (w.take i.1.span) = .ok true → Lowering.Shares pool i.1.lowering (w.take i.1.span))
    {best : Option Candidate} (hbest : BestLoads pool w best) :
    Keeps pool (tryIdioms w idioms best) (BestLoads pool w) := by
  induction idioms generalizing best with
  | nil => exact .pure hbest
  | cons i rest ih =>
    obtain ⟨i, order⟩ := i
    obtain ⟨hi, hrest⟩ := List.forall_mem_cons.mp h
    rw [tryIdioms]
    split
    · exact ih hrest hbest
    · rename_i hspan
      split
      · exact .throw _
      · rename_i p hp
        have hlift : Keeps pool (liftExcept (p (w.take i.span)))
            fun holds => p (w.take i.span) = .ok holds := fun s hs => ⟨hs, fun _ hb => hb⟩
        refine hlift.bind fun holds hholds => ?_
        cases holds with
        | false => exact ih hrest hbest
        | true =>
          exact (consider_keeps i.name (hi p hp (Nat.le_of_not_lt hspan) hholds) order hbest).bind
            fun _ hbest => ih hrest hbest

theorem tryRules_keeps (idioms : Nat) {rules : List PlacedRule}
    (h : ∀ r ∈ rules, r.2.isMatch w → Lowering.Shares pool r.2.lowering (w.take r.2.size))
    {best : Option Candidate} (hbest : BestLoads pool w best) :
    Keeps pool (tryRules w idioms rules best) (BestLoads pool w) := by
  induction rules generalizing best with
  | nil => exact .pure hbest
  | cons r rest ih =>
    obtain ⟨j, r⟩ := r
    obtain ⟨hr, hrest⟩ := List.forall_mem_cons.mp h
    rw [tryRules]
    split
    · rename_i hmatch
      exact (consider_keeps r.name (hr hmatch) (idioms + j) hbest).bind
        fun _ hbest => ih hrest hbest
    · exact ih hrest hbest

end Search

end Selection

theorem loadsLiterals_of_forall {pool : FloatPool} {piece : List Instr}
    (h : ∀ x ∈ piece, ¬ x.is .pushFloat) (code : Code) : LoadsLiterals pool piece code :=
  fun x hx hpush => absurd hpush (h x hx)

namespace Idiom

theorem all_pool : ∀ i ∈ all, ∀ lower, i.lowering = some lower →
    ∀ w pool, (lower w pool).2 = pool := by
  simp only [all, List.forall_mem_cons, List.not_mem_nil, false_imp_iff, implies_true, and_true]
  refine ⟨?_, ?_, ?_, ?_, ?_⟩
  all_goals
    rintro _ ⟨⟩ w pool
    rfl

/-- No idiom pushes a literal. -/
theorem shares_of_mem_all {i : Idiom} (hi : i ∈ all) {p : Predicate} (hp : i.predicate = some p)
    {w : List Instr} (hspan : i.span ≤ w.length) (hw : p (w.take i.span) = .ok true)
    (pool : FloatPool) : Lowering.Shares pool i.lowering (w.take i.span) := by
  intro lower hlower
  refine ⟨all_pool i hi lower hlower _ _, fun code hcode => loadsLiterals_of_forall ?_ code⟩
  intro x hx hpush
  have hplain := all_isPlain i hi p lower hp hlower _ pool code (List.length_take_of_le hspan) hw
    hcode x hx
  rw [beq_iff_eq.mp hpush] at hplain
  cases hplain

end Idiom

theorem Decl.of_isSymbol (d : Decl) (h : d.isSymbol) : d.isConst ∧ d.value.isSome := by
  simp only [Decl.isSymbol, Bool.and_eq_true] at h
  exact h.1.1

/-- Where the literals of some code have been seen, so has the one that an instruction pushes. -/
theorem mem_of_pushFloat {code : List Instr} {seen : List Double}
    (h : code.filterMap Instr.literal? ⊆ seen) {x : Instr} (hx : x ∈ code) (hpush : x.is .pushFloat)
    {v : Value} (hv : x.arg = some v) : v.toDouble ∈ seen := by
  refine h (List.mem_filterMap.mpr ⟨x, hx, ?_⟩)
  rw [Instr.literal?, hv, hpush]
  rfl

namespace Assignment

/-- A rule without literals neither asks for one nor matches where one is pushed. -/
theorem shares_of_reading {r : Rule} (hwell : r.isWellFormed)
    (hops : ∀ op ∈ r.seq ++ r.alt, op ≠ .pushFloat)
    (hpool : ∀ lower, r.lowering = some lower → ∀ w pool, (lower w pool).2 = pool)
    {w : List Instr} (h : r.Applies w) (pool : FloatPool) :
    Lowering.Shares pool r.lowering (w.take r.size) := by
  intro lower hlower
  refine ⟨hpool lower hlower _ _, fun code _ => loadsLiterals_of_forall ?_ code⟩
  intro x hx hpush
  obtain ⟨op, hop, hx⟩ := Rule.exists_op_of_applies hwell h hx
  exact hops op hop (Coded.known.inj (hx.symm.trans (beq_iff_eq.mp hpush)))

theorem floatSources_pool : ∀ s ∈ floatSources.tail, ∀ w pool, (s.place w pool).2 = pool := by
  simp only [floatSources, List.tail_cons, List.forall_mem_cons, List.not_mem_nil, false_imp_iff,
    implies_true, and_true]
  refine ⟨?_, ?_, ?_⟩
  all_goals
    intro w pool
    split
    · rfl
    · rfl

/-- A literal as a source is found in the pool. -/
theorem place_const {s : FloatSource} (hs : floatSources.head? = some s) {pool : FloatPool}
    {seen : List Double} (hpool : pool.Holds seen) {x : Instr}
    (hx : ∀ v, x.arg = some v → v.toDouble ∈ seen) :
    (s.place [x] pool).2 = pool ∧ ∀ source, (s.place [x] pool).1 = .ok (some source) →
      ∃ v k, x.arg = some v ∧ pool.values[k]? = some v.toDouble ∧
        source = .name (FloatPool.label k) := by
  cases hs
  dsimp only
  cases harg : x.arg with
  | none => exact ⟨rfl, fun source hsource => by cases hsource⟩
  | some v =>
    obtain ⟨k, hk, hadd⟩ := hpool.add_of_mem (hx v harg)
    dsimp only
    rw [hadd]
    refine ⟨rfl, fun source hsource => ?_⟩
    cases hsource
    exact ⟨v, k, rfl, hk, rfl⟩

theorem of_floatRule_eq_some {d : FloatDest} {s : FloatSource} {lower : Lowering}
    (hlower : (floatRule d s).lowering = some lower) {w : List Instr} {pool : FloatPool}
    {code : Code} (h : (lower w pool).1 = .ok (some code)) :
    ∃ source dest, (s.place (w.take s.seq.length) pool).1 = .ok (some source) ∧
      code = copyFloat source dest := by
  cases hlower
  obtain ⟨source, hsource, h⟩ := Reading.of_bind_eq_some h
  obtain ⟨dest, -, h⟩ := Reading.of_bind_eq_some h
  cases h
  exact ⟨source, dest, hsource, rfl⟩

/-- A literal copied to a variable comes first, and no other instruction of the rule pushes one. -/
theorem shares_of_const {s : FloatSource} (hs : floatSources.head? = some s) {d : FloatDest}
    (hd : ∀ op ∈ d.seq, op ≠ .pushFloat) {pool : FloatPool} {seen : List Double}
    (hpool : pool.Holds seen) {w : List Instr} (hw : w.filterMap Instr.literal? ⊆ seen)
    (h : (floatRule d s).Applies w) :
    Lowering.Shares pool (floatRule d s).lowering (w.take (floatRule d s).size) := by
  have hseq : s.seq = [.pushFloat] := by
    cases hs
    rfl
  have hsize : (floatRule d s).size = d.seq.length + 1 := by
    rw [Rule.size, floatRule, hseq]
    rfl
  have happlies : (.pushFloat :: d.seq).map .known <+: w.map (·.op) := by
    rcases h with h | ⟨hne, -⟩
    · rwa [floatRule, hseq] at h
    · exact absurd rfl hne
  cases w with
  | nil => simp at happlies
  | cons x rest =>
    obtain ⟨hx, hrest⟩ := List.cons_prefix_cons.mp happlies
    have hpush : x.is .pushFloat := beq_iff_eq.mpr hx.symm
    obtain ⟨hsame, hplace⟩ := place_const hs hpool (x := x) fun v hv =>
      mem_of_pushFloat hw (List.mem_cons_self ..) hpush hv
    rw [hsize, List.take_succ_cons]
    intro lower hlower
    refine ⟨?_, fun code hcode y hy hpush' => ?_⟩
    · cases hlower
      dsimp only
      rw [hseq]
      exact hsame
    · obtain ⟨source, dest, hsource, rfl⟩ := of_floatRule_eq_some hlower hcode
      rw [hseq] at hsource
      rcases List.mem_cons.mp hy with rfl | hy
      · obtain ⟨v, k, hv, hk, rfl⟩ := hplace source hsource
        exact ⟨v, k, hv, hk, List.prefix_append (loadLiteral k) _⟩
      · obtain ⟨op, hop, hy⟩ := exists_op_of_mem_take hrest hy
        exact absurd (Coded.known.inj (hy.symm.trans (beq_iff_eq.mp hpush'))) (hd op hop)

theorem rules_share {pool : FloatPool} {seen : List Double} (hpool : pool.Holds seen)
    {w : List Instr} (hw : w.filterMap Instr.literal? ⊆ seen) :
    ∀ r ∈ rules, r.isWellFormed → r.Applies w →
      Lowering.Shares pool r.lowering (w.take r.size) := by
  intro r hr hwell happlies
  simp only [rules, List.mem_append, List.mem_flatMap, List.mem_map] at hr
  rcases hr with (⟨d, hd, s, hs, rfl⟩ | ⟨d, hd, s, hs, rfl⟩) | ⟨d, hd, s, hs, rfl⟩
  · have hops : ∀ d ∈ byteDests, ∀ s ∈ byteSources,
        ∀ op ∈ (byteRule d s).seq ++ (byteRule d s).alt, op ≠ .pushFloat := by decide
    refine shares_of_reading hwell (hops d hd s hs) ?_ happlies pool
    rintro _ ⟨⟩ w pool
    rfl
  · have hops : ∀ d ∈ wordDests, ∀ s ∈ wordSources,
        ∀ op ∈ (wordRule d s).seq ++ (wordRule d s).alt, op ≠ .pushFloat := by decide
    refine shares_of_reading hwell (hops d hd s hs) ?_ happlies pool
    rintro _ ⟨⟩ w pool
    rfl
  · rcases List.mem_cons.mp hs with hs | hs
    · have hops : ∀ d ∈ floatDests, ∀ op ∈ d.seq, op ≠ .pushFloat := by decide
      exact shares_of_const (hs ▸ rfl) (hops d hd) hpool hw happlies
    · have hops : ∀ d ∈ floatDests, ∀ s ∈ floatSources.tail,
          ∀ op ∈ (floatRule d s).seq ++ (floatRule d s).alt, op ≠ .pushFloat := by decide
      refine shares_of_reading hwell (hops d hd s hs) ?_ happlies pool
      rintro _ ⟨⟩ w pool
      exact floatSources_pool s hs _ _

end Assignment

/-! ### Selection -/

section Select

variable {pool : FloatPool} {seen : List Double} (hpool : pool.Holds seen)
include hpool

theorem fallback_shares {op : Opcode} {f : Fallback} (hf : fallback? op = some f) {x : Instr}
    (hop : x.op = .known op) (hx : ∀ v, x.is .pushFloat → x.arg = some v → v.toDouble ∈ seen)
    (scope : Option Text) {s : Session} (hs : s.pool = pool) : (f scope x s).2.pool = pool ∧
      ∀ code, (f scope x s).1 = .ok (some code) → LoadsLiterals pool [x] code := by
  by_cases hpush : x.is .pushFloat
  · obtain rfl : op = .pushFloat := Coded.known.inj (hop.symm.trans (beq_iff_eq.mp hpush))
    cases hf
    unfold Fallback.pushFloat
    cases harg : x.arg with
    | none => exact ⟨hs, fun code hcode => by cases hcode⟩
    | some v =>
      obtain ⟨k, hk, hadd⟩ := hpool.add_of_mem (hx v hpush harg)
      dsimp only
      rw [hs, hadd]
      refine ⟨rfl, fun code hcode y hy _ => ?_⟩
      cases hcode
      obtain rfl := List.mem_singleton.mp hy
      exact ⟨v, k, harg, hk, List.prefix_append (loadLiteral k) _⟩
  · have hloads : ∀ code, LoadsLiterals pool [x] code :=
      loadsLiterals_of_forall (List.forall_mem_singleton.mpr hpush)
    refine ⟨?_, fun code _ => hloads code⟩
    rcases fallback?_cases hf with ⟨-, rfl⟩ | ⟨rfl, -⟩ | ⟨g, hg⟩
    · exact hs
    · exact absurd (beq_iff_eq.mpr hop) hpush
    · rw [hg]
      exact hs

theorem Selection.alone_keeps (scope : Option Text) {op : Opcode} {x : Instr}
    (hop : x.op = .known op) (hx : ∀ v, x.is .pushFloat → x.arg = some v → v.toDouble ∈ seen) :
    Keeps pool (alone scope op x) fun o => ∀ f ∈ o, f.size = 1 ∧ LoadsLiterals pool [x] f.code := by
  unfold alone
  cases hf : fallback? op with
  | none => exact .pure (by simp)
  | some fallback =>
    have hrun : Keeps pool (ExceptT.mk (modifyGet (fallback scope x)) : Selecting (Option Code))
        fun o => ∀ code ∈ o, LoadsLiterals pool [x] code := by
      intro s hs
      obtain ⟨hsame, hloads⟩ := fallback_shares hpool hf hop hx scope hs
      refine ⟨hsame, ?_⟩
      rintro o ho code rfl
      exact hloads code ho
    refine hrun.bind fun o ho => .pure fun f hf => ?_
    obtain ⟨code, hcode, rfl⟩ := Option.map_eq_some_iff.mp hf
    exact ⟨rfl, ho code hcode⟩

theorem Catalog.select_keeps {window : Int} {c : Catalog}
    (hmake : make window Idiom.all Assignment.rules = .ok c) (scope : Option Text)
    {code : List Instr} (hcode : code.filterMap Instr.literal? ⊆ seen) :
    Keeps pool (c.select scope code) fun o =>
      ∀ f ∈ o, LoadsLiterals pool ((Selection.reach c.window.toNat code).take f.size) f.code := by
  obtain ⟨hwell, -, rfl⟩ := make_eq_ok_iff.mp hmake
  unfold select
  split
  · exact .throw _
  · dsimp only
    cases hreach : Selection.reach window.toNat code with
    | nil => exact .pure (by simp)
    | cons x rest =>
      have hw : (x :: rest).filterMap Instr.literal? ⊆ seen := by
        have hreached : Selection.reach window.toNat code <+: code :=
          Selection.reach_prefix.trans (List.take_prefix ..)
        rw [hreach] at hreached
        exact fun v hv => hcode ((hreached.sublist.filterMap _).subset hv)
      have hnone : Selection.BestLoads pool (x :: rest) none := by simp [Selection.BestLoads]
      dsimp only
      refine (Selection.tryIdioms_keeps (fun i hi p hp hspan hw =>
        Idiom.shares_of_mem_all (List.fst_mem_of_mem_zipIdx hi) hp hspan hw pool) hnone).bind
        fun best hbest => ?_
      cases hx : x.op with
      | stray n => exact .throw _
      | known op =>
        refine (Selection.tryRules_keeps _ (fun r hr hmatch =>
          Assignment.rules_share hpool hw r.2 (mem_of_mem_rulesAt rfl hr)
            (hwell _ (mem_of_mem_rulesAt rfl hr)) ((r.2.isMatch_iff _).mp hmatch)) hbest).bind
          fun best hbest => ?_
        cases best with
        | some b => exact .pure fun f hf => by cases hf; exact hbest b rfl
        | none =>
          refine (Selection.alone_keeps hpool scope hx fun v hpush hv =>
            mem_of_pushFloat hw (List.mem_cons_self ..) hpush hv).mono fun o ho f hf => ?_
          obtain ⟨hsize, hloads⟩ := ho f hf
          rw [hsize]
          exact hloads

namespace Catalog

variable {window : Int} {c : Catalog}
  (hmake : make window Idiom.all Assignment.rules = .ok c)
include hmake

theorem loads_of_select {scope : Option Text} {code : List Instr}
    (hcode : code.filterMap Instr.literal? ⊆ seen) {s t : Session} (hs : s.pool = pool)
    {f : Fragment} (h : (c.select scope code).run.run s = (.ok (some f), t)) :
    t.pool = pool ∧ LoadsLiterals pool (code.take f.size) f.code := by
  obtain ⟨hsame, hloads⟩ := select_keeps hpool hmake scope hcode s hs
  obtain ⟨hc, rfl⟩ := isSound_of_make hmake
  obtain ⟨-, -, hle⟩ := hc.of_select_eq_some (window_nonneg_of_select h) h
  rw [h] at hsame hloads
  rw [← Selection.take_reach hle]
  exact ⟨hsame, hloads _ rfl f rfl⟩

/-- The fragments of a block, each with the piece of code it stands for. -/
theorem Takes.loads {scope : Option Text} {code rest : List Instr} {s t : Session}
    {fs : List Fragment} (h : c.Takes scope code s fs rest t)
    (hcode : code.filterMap Instr.literal? ⊆ seen) (hs : s.pool = pool) :
    t.pool = pool ∧ ∃ pieces,
      List.Forall₂ (fun piece f => LoadsLiterals pool piece f.code) pieces fs ∧
      code = pieces.flatten ++ rest := by
  induction h with
  | nil code s => exact ⟨hs, [], .nil, rfl⟩
  | @cons code rest s t u f fs hrun _ ih =>
    obtain ⟨ht, hloads⟩ := loads_of_select hpool hmake hcode hs hrun
    have hdrop : (code.drop f.size).filterMap Instr.literal? ⊆ seen := fun v hv =>
      hcode (((List.drop_sublist ..).filterMap _).subset hv)
    obtain ⟨hu, pieces, hpieces, hrest⟩ := ih hdrop ht
    refine ⟨hu, code.take f.size :: pieces, .cons hloads hpieces, ?_⟩
    rw [List.flatten_cons, List.append_assoc, ← hrest, List.take_append_drop]

theorem selectAll_pool (scope : Option Text) {code : List Instr}
    (hcode : code.filterMap Instr.literal? ⊆ seen) {s : Session} (hs : s.pool = pool) :
    ((c.selectAll scope code).run s).2.pool = pool := by
  fun_induction selectAll c scope code generalizing s with
  | case1 => exact hs
  | case2 x code ih =>
    obtain ⟨hsame, -⟩ := select_keeps hpool hmake scope hcode s hs
    rw [StateT.run_bind]
    cases hrun : (c.select scope (x :: code)).run.run s with
    | mk r t =>
      rw [hrun] at hsame
      cases r with
      | error d => exact hsame
      | ok o =>
        cases o with
        | none => exact hsame
        | some f =>
          refine ih f (fun v hv => hcode ?_) hsame
          exact (((List.drop_sublist ..).trans (List.sublist_cons_self ..)).filterMap _).subset hv

end Catalog

/-! ### Symbols and blocks -/

namespace Assembly

/-- The line of a symbol, which for a float constant bears the label of its literal. -/
def IsSymbolLine (pool : FloatPool) (d : Decl) (line : Text) : Prop :=
  ∃ v value, d.value = some v ∧ line = "\t" ++ d.name ++ " = " ++ value ++ "\n" ∧
    (d.type = .known .float → ∃ k, pool.values[k]? = some v.toDouble ∧ value = FloatPool.label k)

theorem symbolLine_keeps {d : Decl} {v : Value} (hvalue : d.value = some v)
    (hd : d.type = .known .float → v.toDouble ∈ seen) :
    Keeps pool (symbolLine d v) (IsSymbolLine pool d) := by
  unfold symbolLine
  dsimp only
  split
  · rename_i v _ _ hfloat
    obtain ⟨k, hk, hadd⟩ := hpool.add_of_mem (hd hfloat)
    refine Keeps.bind (P := (· = some (FloatPool.label k))) (fun s hs => ?_) fun label hlabel => ?_
    · change (s.pool.add v.toDouble).2 = pool ∧
        ∀ label, Except.ok (s.pool.add v.toDouble).1 = .ok label → label = some (FloatPool.label k)
      rw [hs, hadd]
      exact ⟨rfl, fun label hlabel => (Except.ok.inj hlabel).symm⟩
    · subst hlabel
      exact .pure ⟨v, _, hvalue, rfl, fun _ => ⟨k, hk, rfl⟩⟩
  · exact .throw _
  · rename_i n hne
    exact .pure ⟨_, _, hvalue, rfl, fun hfloat => absurd hfloat hne⟩

theorem symbolTexts_keeps {ds : List Decl} (hds : ds.filterMap Decl.literal? ⊆ seen) :
    Keeps pool (symbolTexts ds) fun text => ∃ lines,
      List.Forall₂ (IsSymbolLine pool) (ds.filter Decl.isSymbol) lines ∧ text = lines.flatten := by
  induction ds with
  | nil => exact .pure ⟨[], .nil, rfl⟩
  | cons d ds ih =>
    have hrest := ih fun v hv => hds (((List.sublist_cons_self d ds).filterMap _).subset hv)
    rw [symbolTexts]
    split
    · rename_i v hsymbol hvalue
      have hd : d.type = .known .float → v.toDouble ∈ seen := by
        intro hfloat
        refine hds (List.mem_filterMap.mpr ⟨d, List.mem_cons_self .., ?_⟩)
        simp [Decl.literal?, d.of_isSymbol hsymbol, hfloat, hvalue]
      rw [List.filter_cons_of_pos hsymbol]
      refine (symbolLine_keeps hpool hvalue hd).bind fun line hline => hrest.bind ?_
      rintro _ ⟨lines, hlines, rfl⟩
      exact .pure ⟨line :: lines, .cons hline hlines, rfl⟩
    · rename_i hnot
      have hsymbol : ¬ d.isSymbol := by
        intro hsymbol
        obtain ⟨v, hv⟩ := Option.isSome_iff_exists.mp (d.of_isSymbol hsymbol).2
        exact hnot v hsymbol hv
      rw [List.filter_cons_of_neg hsymbol]
      exact hrest

structure BlockPart.Shares (pool : FloatPool) (b : Block) (part : BlockPart) : Prop where
  symbols : ∃ lines, List.Forall₂ (IsSymbolLine pool) (b.decls.filter Decl.isSymbol) lines ∧
    part.symbols = lines.flatten
  code : ∃ pieces, List.Forall₂ (fun piece f => LoadsLiterals pool piece f.code) pieces
    part.fragments ∧ b.code = pieces.flatten

section Blocks

variable {opts : Options} {heap : Heap} {window : Int}
  (hmake : Catalog.make window Idiom.all Assignment.rules = .ok opts.catalog)
include hmake

theorem codeText_keeps {b : Block} (hb : b.code.filterMap Instr.literal? ⊆ seen) :
    Keeps pool (codeText opts.catalog b) fun _ => True := by
  unfold codeText
  refine Keeps.bind (P := fun _ => True) (fun s hs => ?_) fun selection _ => ?_
  · exact ⟨Catalog.selectAll_pool hpool hmake _ hb hs, fun _ _ => trivial⟩
  · refine Keeps.bind (P := fun _ => True) (fun s hs => ⟨hs, fun _ _ => trivial⟩) fun _ _ => ?_
    split
    · exact .throw _
    · exact .pure trivial
    · exact .throw _

theorem blockText_keeps {b : Block} (hb : b.literals ⊆ seen) :
    Keeps pool (blockText opts heap b) fun _ => True := by
  obtain ⟨hdecls, hcode⟩ := List.append_subset.mp hb
  unfold blockText
  refine ((symbolTexts_keeps hpool hdecls).adapt _).bind fun symbols _ => ?_
  refine Keeps.bind (P := fun _ => True) (fun s hs => ⟨hs, fun _ _ => trivial⟩) fun storage _ => ?_
  exact (codeText_keeps hpool hmake hcode).bind fun code _ => .pure trivial

/-- Emitting the blocks adds no literal, whether or not it succeeds. -/
theorem blockTexts_keeps {bs : List Block} (hbs : bs.flatMap Block.literals ⊆ seen) :
    Keeps pool (blockTexts opts heap bs) fun _ => True := by
  induction bs with
  | nil => exact .pure trivial
  | cons b bs ih =>
    obtain ⟨hb, hbs⟩ := List.append_subset.mp hbs
    exact (blockText_keeps hpool hmake hb).bind fun first _ =>
      (ih hbs).bind fun rest _ => .pure trivial

theorem BlockPart.IsOf.shares {b : Block} {s t : Session} {part : BlockPart}
    (h : part.IsOf opts heap b s t) (hb : b.literals ⊆ seen) (hs : s.pool = pool) :
    t.pool = pool ∧ part.Shares pool b := by
  obtain ⟨u, v, hsymbols, -, hall, rfl⟩ := h
  obtain ⟨hdecls, hcode⟩ := List.append_subset.mp hb
  obtain ⟨hu, hlines⟩ := symbolTexts_keeps hpool hdecls s hs
  rw [hsymbols] at hu hlines
  obtain ⟨htakes, -⟩ := Catalog.takes_of_selectAll hmake hall
  obtain ⟨hv, pieces, hpieces, hflatten⟩ := htakes.loads hpool hmake hcode hu
  exact ⟨hv, hlines _ rfl, pieces, hpieces, hflatten.trans (List.append_nil _)⟩

theorem Parts.shares {bs : List Block} {s t : Session} {parts : List BlockPart}
    (h : Parts opts heap bs s parts t) (hbs : bs.flatMap Block.literals ⊆ seen)
    (hs : s.pool = pool) : t.pool = pool ∧ List.Forall₂ (BlockPart.Shares pool) bs parts := by
  induction h with
  | nil => exact ⟨hs, .nil⟩
  | cons hpart _ ih =>
    obtain ⟨hb, hbs⟩ := List.append_subset.mp hbs
    obtain ⟨ht, hshares⟩ := hpart.shares hpool hmake hb hs
    obtain ⟨hu, hrest⟩ := ih hbs ht
    exact ⟨hu, .cons hshares hrest⟩

end Blocks

end Assembly

end Select

end Stack6502
