import Stack6502.Proofs.WordCopies

/-!
# Floats moved by the library

A float pushed and popped is copied by one routine, or passes over the stack by two. All three get
addresses. The copy gets those of the storage that the instructions name. The other two get the
address of a symbol wherever an instruction has one, also where it names storage by its address.
-/
namespace Stack6502

def Cpu.argument (c : Cpu) : Word := .ofBytes c.y c.a

def Cpu.pointer (c : Cpu) : Word := .ofBytes (c.mem 0xfc) (c.mem 0xfb)

def Ref.place : Ref → Place
  | .var name => .name name
  | .mem a => .address a

namespace Layout

def word (L : Layout) (p : Place) : Word := BitVec.ofInt 16 (L.value p)

/-- The lines end with a call of the library routine and find the processor in such a state there,
whatever it was before. -/
def Calls (L : Layout) (ls : List Line) (routine : Text) (P : Cpu → Prop) : Prop :=
  ∃ front, ls = front ++ [Asm.library routine] ∧ ∀ c, ∃ d, L.run front c = some d ∧ P d

variable (L : Layout)

theorem ofBytes_word (p : Place) :
    Word.ofBytes (L.word p).high (BitVec.ofInt 8 (L.value p)) = L.word p := by
  rw [← Word.low_ofInt]
  exact Word.ofBytes_high_low _

theorem calls_addressed (routine : Text) (p : Place) :
    L.Calls (Fallback.addressed routine p).lines routine
      (·.argument = L.word p) := by
  refine ⟨[Asm.lda (.lowOf p), Asm.ldy (.highOf p)], rfl, fun c => ⟨_, rfl, ?_⟩⟩
  exact L.ofBytes_word p

theorem calls_copyFloat (p q : Place) :
    L.Calls (copyFloat p q).lines "copy_float" fun c =>
      c.pointer = L.word p ∧ c.argument = L.word q := by
  refine ⟨[Asm.lda (.lowOf p), Asm.ldy (.highOf p), Asm.sta Asm.pointerLow,
    Asm.sty Asm.pointerHigh, Asm.lda (.lowOf q), Asm.ldy (.highOf q)], rfl,
    fun c => ⟨_, rfl, ?_, ?_⟩⟩
  · exact L.ofBytes_word p
  · exact L.ofBytes_word q

end Layout

namespace Assignment

def floatPushes : List Opcode := [.pushVarFloat, .pushMemFloat]

def floatPops : List Opcode := [.popVarFloat, .popMemFloat]

def moveSource : Opcode → FloatSource
  | .pushVarFloat => floatSources[1]
  | _ => floatSources[2]

def moveDest : Opcode → FloatDest
  | .popVarFloat => floatDests[0]
  | _ => floatDests[1]

/-- The rule for a float that one opcode pushes and another pops. -/
def moveRule (op op' : Opcode) : Rule := floatRule (moveDest op') (moveSource op)

section

variable {op op' : Opcode} {x y : Instr}

theorem filter_moves (hop : op ∈ floatPushes) (hop' : op' ∈ floatPops) :
    rules.filter (startsWith op op') = [moveRule op op'] := by
  simp only [floatPushes, floatPops, List.mem_cons, List.not_mem_nil, or_false] at hop hop'
  rcases hop with rfl | rfl <;> rcases hop' with rfl | rfl <;> rfl

theorem seq_moveRule (hop : op ∈ floatPushes) (hop' : op' ∈ floatPops) :
    (moveRule op op').seq = [op, op'] := by
  simp only [floatPushes, floatPops, List.mem_cons, List.not_mem_nil, or_false] at hop hop'
  rcases hop with rfl | rfl <;> rcases hop' with rfl | rfl <;> rfl

/-- Of all rules only the one for the two opcodes applies. -/
theorem filter_applies_moves (hop : op ∈ floatPushes) (hop' : op' ∈ floatPops)
    (hx : x.op = .known op) (hy : y.op = .known op') (rest : List Instr) :
    rules.filter (·.Applies (x :: y :: rest)) = [moveRule op op'] := by
  have happlies : (moveRule op op').Applies (x :: y :: rest) := by
    refine .inl ?_
    rw [seq_moveRule hop hop']
    simp [hx, hy]
  calc rules.filter (·.Applies (x :: y :: rest))
      = (rules.filter (startsWith op op')).filter (·.Applies (x :: y :: rest)) := by
        rw [List.filter_filter]
        refine List.filter_congr fun r hr => ?_
        by_cases h : r.Applies (x :: y :: rest)
        · simp [h, startsWith_of_applies hr hx hy h]
        · simp [h]
    _ = [moveRule op op'] := by simp [filter_moves hop hop', happlies]

/-- The place that an instruction on its own hands over: a symbol comes first. -/
def spelled (x : Instr) (ref : Ref) : Place := if x.sym = [] then ref.place else .name x.sym

theorem names_variable (hop : op = .pushVarFloat ∨ op = .popVarFloat) (hx : x.IsWhole op) :
    x.sym ≠ [] ∧ x.ref? = some (.var x.sym) ∧
      Fallback.place? x = some (spelled x (.var x.sym)) := by
  have hoperand : op.operand = .name := by rcases hop with rfl | rfl <;> rfl
  have hsym := List.isEmpty_eq_false_iff.mp (x.sym_nonempty hx.2 hx.1 hoperand)
  refine ⟨hsym, ?_, by simp [Fallback.place?, spelled, hsym]⟩
  rcases hop with rfl | rfl <;> simp [Instr.ref?, hx.1, hsym]

theorem names_memory (hop : op = .pushMemFloat ∨ op = .popMemFloat) (hx : x.IsWhole op) :
    ∃ a, x.int? = some a ∧ x.ref? = some (.mem a) ∧
      Fallback.place? x = some (spelled x (.mem a)) := by
  have hoperand : op.operand = .int := by rcases hop with rfl | rfl <;> rfl
  obtain ⟨a, ha⟩ := x.exists_int hx.2 hx.1 hoperand
  refine ⟨a, ha, ?_, ?_⟩
  · rcases hop with rfl | rfl <;> simp [Instr.ref?, hx.1, ha]
  · by_cases hsym : x.sym = []
    · simp [Fallback.place?, spelled, hsym, ha, Ref.place]
    · simp [Fallback.place?, spelled, hsym]

/-- The rule takes the storage that a push names, its own code the symbol if there is one. -/
theorem exists_pushed (hop : op ∈ floatPushes) (hx : x.IsWhole op) :
    ∃ ref, x.ref? = some ref ∧ Fallback.place? x = some (spelled x ref) ∧
      ∀ pool, (moveSource op).place [x] pool = (.ok (some ref.place), pool) := by
  simp only [floatPushes, List.mem_cons, List.not_mem_nil, or_false] at hop
  rcases hop with rfl | rfl
  · obtain ⟨hsym, href, hplace⟩ := names_variable (by simp) hx
    refine ⟨_, href, hplace, fun pool => ?_⟩
    simp [moveSource, floatSources, Ref.place, hsym]
  · obtain ⟨a, ha, href, hplace⟩ := names_memory (by simp) hx
    refine ⟨_, href, hplace, fun pool => ?_⟩
    simp [moveSource, floatSources, Instr.integer, ha, Ref.place]
    rfl

theorem exists_popped (hop : op ∈ floatPops) (hx : x.IsWhole op) :
    ∃ ref, x.ref? = some ref ∧ Fallback.place? x = some (spelled x ref) ∧
      ((moveDest op).place [x]).run = .ok (some ref.place) := by
  simp only [floatPops, List.mem_cons, List.not_mem_nil, or_false] at hop
  rcases hop with rfl | rfl
  · obtain ⟨-, href, hplace⟩ := names_variable (by simp) hx
    exact ⟨_, href, hplace, rfl⟩
  · obtain ⟨a, ha, href, hplace⟩ := names_memory (by simp) hx
    refine ⟨_, href, hplace, ?_⟩
    simp [moveDest, floatDests, Instr.integer, ha, Ref.place]
    rfl

theorem offer?_floatRule {d : FloatDest} {s : FloatSource} {w : List Instr} {pool pool' : FloatPool}
    {source dest : Place}
    (hsource : s.place (w.take s.seq.length) pool = (.ok (some source), pool'))
    (hdest : (d.place (w.drop s.seq.length)).run = .ok (some dest)) (name : Text) :
    Lowering.offer? name (floatRule d s).lowering w pool =
      some ⟨name, copyFloat source dest, w.length, false⟩ := by
  have hrun : (do
      return copyFloat (← OptionT.mk (.ok (some source))) (← d.place (w.drop s.seq.length)) :
        Reading Code).run = .ok (some (copyFloat source dest)) := by
    change (d.place (w.drop s.seq.length) >>= fun q => pure (copyFloat source q)).run = _
    rw [OptionT.run_bind, hdest]
    rfl
  have hlower : ∀ lower ∈ (floatRule d s).lowering,
      (lower w pool).1 = .ok (some (copyFloat source dest)) := by
    rintro _ ⟨⟩
    simp only [hsource]
    exact hrun
  exact Lowering.offer?_of_eq_ok (hlower _ rfl)

theorem offer?_moveRule (hop : op ∈ floatPushes) (hop' : op' ∈ floatPops) (hx : x.op = .known op)
    (hy : y.op = .known op') (rest : List Instr) {source dest : Place} (pool : FloatPool)
    (hsource : (moveSource op).place [x] pool = (.ok (some source), pool))
    (hdest : ((moveDest op').place [y]).run = .ok (some dest)) :
    (moveRule op op').offer? (x :: y :: rest) pool =
      some ⟨(moveRule op op').name, copyFloat source dest, 2, false⟩ := by
  have hseq := seq_moveRule hop hop'
  have happlies : (moveRule op op').Applies (x :: y :: rest) := .inl (by simp [hseq, hx, hy])
  have hsize : (moveRule op op').size = 2 := by rw [Rule.size, hseq]; rfl
  have hlength : (moveSource op).seq.length = 1 := by unfold moveSource; split <;> rfl
  rw [Rule.offer?, if_pos happlies, hsize]
  exact offer?_floatRule (by rw [hlength]; exact hsource) (by rw [hlength]; exact hdest) _

end

end Assignment

open Assignment

theorem Instr.standalone?_of_place? {x : Instr} {op : Opcode} {routine : Text} {p : Place}
    (hx : x.op = .known op) (hop : fallback? op = some (Fallback.floatAt routine))
    (hp : Fallback.place? x = some p) (scope : Option Text) (s : Session) :
    x.standalone? scope s = some (Fallback.addressed routine p, s) := by
  simp [Instr.standalone?, hx, hop, Fallback.floatAt, Fallback.plain, hp]

theorem Layout.word_spelled_iff (L : Layout) (x : Instr) (ref : Ref) :
    L.word (spelled x ref) = L.word ref.place ↔
      x.sym = [] ∨ L.word (.name x.sym) = L.word ref.place := by
  by_cases hsym : x.sym = []
  · simp [spelled, hsym]
  · simp [spelled, hsym]

/-- A float is pushed and popped. One rule applies to the pair, and the routine that it calls gets
the addresses of the storage that the instructions name. The code of the instructions on their own
hands over the same addresses exactly if an instruction has no symbol, or one that stands for that
storage. -/
theorem floatMove_operands_iff {op op' : Opcode} (hop : op ∈ floatPushes) (hop' : op' ∈ floatPops)
    {x y : Instr} (hx : x.IsWhole op) (hy : y.IsWhole op') (rest : List Instr)
    (scope : Option Text) (s : Session) :
    ∃ r f push pop source dest, rules.filter (·.Applies (x :: y :: rest)) = [r] ∧
      (∀ pool, r.offer? (x :: y :: rest) pool = some f) ∧
      x.standalone? scope s = some (push, s) ∧ y.standalone? scope s = some (pop, s) ∧
      x.ref? = some source ∧ y.ref? = some dest ∧
      ∀ L : Layout, ∃ p q, L.Calls f.code.lines "copy_float" (fun c =>
          c.pointer = L.word source.place ∧ c.argument = L.word dest.place) ∧
        L.Calls push.lines "push_float" (·.argument = p) ∧
        L.Calls pop.lines "pop_var_float" (·.argument = q) ∧
        (p = L.word source.place ↔ x.sym = [] ∨ L.word (.name x.sym) = L.word source.place) ∧
        (q = L.word dest.place ↔ y.sym = [] ∨ L.word (.name y.sym) = L.word dest.place) := by
  obtain ⟨source, hsource, hpush, hfrom⟩ := exists_pushed hop hx
  obtain ⟨dest, hdest, hpop, hto⟩ := exists_popped hop' hy
  have hcode : fallback? op = some (Fallback.floatAt "push_float") := by
    simp only [floatPushes, List.mem_cons, List.not_mem_nil, or_false] at hop
    rcases hop with rfl | rfl <;> rfl
  have hcode' : fallback? op' = some (Fallback.floatAt "pop_var_float") := by
    simp only [floatPops, List.mem_cons, List.not_mem_nil, or_false] at hop'
    rcases hop' with rfl | rfl <;> rfl
  exact ⟨moveRule op op', _, _, _, source, dest, filter_applies_moves hop hop' hx.1 hy.1 rest,
    fun pool => offer?_moveRule hop hop' hx.1 hy.1 rest pool (hfrom pool) hto,
    Instr.standalone?_of_place? hx.1 hcode hpush scope s,
    Instr.standalone?_of_place? hy.1 hcode' hpop scope s, hsource, hdest,
    fun L => ⟨_, _, L.calls_copyFloat _ _, L.calls_addressed _ _, L.calls_addressed _ _,
      L.word_spelled_iff x source, L.word_spelled_iff y dest⟩⟩

namespace FloatMove

/-- Memory given by its address, with a symbol besides. -/
def push : Instr := { op := .known .pushMemFloat, arg := some (.int 0x1000), sym := "foo" }

def pop : Instr := { op := .known .popVarFloat, sym := "v" }

def layout (foo : Int) : Layout where
  address name := if name = "foo" then foo else 0x3000
  routine _ c := c

end FloatMove

open FloatMove

theorem floatMove_operands_iff_alias : ∃ f own own', (∃ r ∈ rules, ∀ pool,
      r.offer? [push, pop] pool = some f) ∧
    push.standalone? none .start = some (own, .start) ∧
    pop.standalone? none .start = some (own', .start) ∧
    (layout 0x1000).Calls f.code.lines "copy_float"
      (fun c => c.pointer = 0x1000 ∧ c.argument = 0x3000) ∧
    (layout 0x1000).Calls own.lines "push_float" (·.argument = 0x1000) ∧
    (layout 0x1000).Calls own'.lines "pop_var_float" (·.argument = 0x3000) := by
  have hx : push.IsWhole .pushMemFloat := ⟨rfl, rfl⟩
  have hy : pop.IsWhole .popVarFloat := ⟨rfl, rfl⟩
  obtain ⟨r, f, own, own', source, dest, hrules, hoffer, hpush, hpop, ⟨⟩, ⟨⟩, hcalls⟩ :=
    floatMove_operands_iff (by decide) (by decide) hx hy [] none .start
  obtain ⟨p, q, hcopy, hfrom, hto, hp, hq⟩ := hcalls (layout 0x1000)
  obtain rfl := hp.mpr (.inr rfl)
  obtain rfl := hq.mpr (.inr rfl)
  have hr : r ∈ rules.filter (·.Applies [push, pop]) := hrules ▸ List.mem_singleton_self r
  exact ⟨f, own, own', ⟨r, List.mem_of_mem_filter hr, hoffer⟩, hpush, hpop, hcopy, hfrom, hto⟩

/-- A symbol that stands for something else: the copy is made from the address, the push from the
symbol. -/
theorem floatMove_operands_differ : ∃ f own, (∃ r ∈ rules, ∀ pool,
      r.offer? [push, pop] pool = some f) ∧
    push.standalone? none .start = some (own, .start) ∧
    (layout 0x2000).Calls f.code.lines "copy_float"
      (fun c => c.pointer = 0x1000 ∧ c.argument = 0x3000) ∧
    (layout 0x2000).Calls own.lines "push_float" (·.argument = 0x2000) := by
  have hx : push.IsWhole .pushMemFloat := ⟨rfl, rfl⟩
  have hy : pop.IsWhole .popVarFloat := ⟨rfl, rfl⟩
  obtain ⟨_, ⟨⟩, hplace, hfrom⟩ := exists_pushed (by decide) hx
  obtain ⟨_, ⟨⟩, -, hto⟩ := exists_popped (by decide) hy
  have hr : moveRule .pushMemFloat .popVarFloat ∈ rules.filter (·.Applies [push, pop]) := by
    rw [filter_applies_moves (by decide) (by decide) hx.1 hy.1]
    exact List.mem_singleton_self _
  exact ⟨_, _, ⟨_, List.mem_of_mem_filter hr, fun pool =>
      offer?_moveRule (by decide) (by decide) hx.1 hy.1 [] pool (hfrom pool) hto⟩,
    Instr.standalone?_of_place? hx.1 rfl hplace none .start,
    (layout 0x2000).calls_copyFloat _ _, (layout 0x2000).calls_addressed _ _⟩

end Stack6502
