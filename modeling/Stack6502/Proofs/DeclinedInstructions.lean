import Stack6502.Proofs.AskedPatterns
import Stack6502.Proofs.FloatLiterals
import Stack6502.Proofs.FloatReadBack
import Stack6502.Proofs.SelectionProgress

/-!
# Instructions without code

An opcode on its own serves almost every complete instruction. It declines those on registers that
its table does not reach, calls without a routine, and literals that are no number. Selection
fails at exactly these instructions where no pattern helps, and at incomplete ones.
-/
namespace Stack6502

open Selection

/-- The registers that the code of an opcode on its own cannot reach. -/
def Opcode.barred : Opcode → List Home
  | .pushVarByte | .popVarByte => [.reg .x, .pair .ax, .pair .ay, .pair .xy]
  | .pushVarWord | .popVarWord => [.reg .a, .reg .x, .reg .y, .pair .ax, .pair .xy]
  | .incVarUB | .incVarB | .decVarUB | .decVarB => [.pair .ax, .pair .ay, .pair .xy]
  | .incVarUW | .incVarW | .decVarUW | .decVarW => [.reg .a, .reg .x, .reg .y]
  | _ => []

inductive Instr.IsUntranslatable (x : Instr) : Prop
  | register {op : Opcode} {home : Home} (known : x.op = .known op) (barred : home ∈ op.barred)
    (sym : x.sym = Text.ofString home.name)
  | syscall {v : Int64} (known : x.op = .known .syscall) (int : x.int? = some v)
    (outside : v < 16 ∨ 43 < v)
  | float {d : Double} (known : x.op = .known .pushFloat) (arg : x.arg = some (.float d))
    (isNaN : d.isNaN)

theorem Home.ofName_eq_iff {home : Home} (h : home.isRegister) {name : Text} :
    Home.ofName name = home ↔ name = Text.ofString home.name := by
  constructor
  · rintro rfl
    unfold Home.ofName at h ⊢
    split_ifs at h ⊢ with ha hx hy hax hay hxy
    · exact ha
    · exact hx
    · exact hy
    · exact hax
    · exact hay
    · exact hxy
    · cases h
  · rintro rfl
    revert home
    have hall : ∀ home ∈ Home.all, home.isRegister →
        Home.ofName (Text.ofString home.name) = home := by decide
    intro home
    refine hall home ?_
    rcases home with (_ | _ | _) | (_ | _ | _) | _ | _ <;> decide

namespace Instr

variable {x : Instr} {op : Opcode}

theorem isUntranslatable_iff_of_barred (known : x.op = .known op)
    (hop : op ∉ [.syscall, .pushFloat]) (hreg : ∀ home ∈ op.barred, home.isRegister) :
    x.IsUntranslatable ↔ Home.ofName x.sym ∈ op.barred := by
  constructor
  · rintro (⟨known', hbarred, hsym⟩ | ⟨known', -, -⟩ | ⟨known', -, -⟩)
    · cases known.symm.trans known'
      rwa [(Home.ofName_eq_iff (hreg _ hbarred)).mpr hsym]
    · cases known.symm.trans known'
      exact absurd (by decide) hop
    · cases known.symm.trans known'
      exact absurd (by decide) hop
  · intro h
    exact .register known h ((Home.ofName_eq_iff (hreg _ h)).mp rfl)

theorem isUntranslatable_syscall_iff (known : x.op = .known .syscall) {v : Int64}
    (hv : x.int? = some v) : x.IsUntranslatable ↔ v < 16 ∨ 43 < v := by
  constructor
  · rintro (⟨known', hbarred, -⟩ | ⟨-, hint, h⟩ | ⟨known', -, -⟩)
    · cases known.symm.trans known'
      cases hbarred
    · cases hv.symm.trans hint
      exact h
    · cases known.symm.trans known'
  · exact .syscall known hv

theorem isUntranslatable_float_iff (known : x.op = .known .pushFloat) {v : Value}
    (hv : x.arg = some v) : x.IsUntranslatable ↔ v.toDouble.isNaN := by
  constructor
  · rintro (⟨known', hbarred, -⟩ | ⟨known', -, -⟩ | ⟨-, harg, h⟩)
    · cases known.symm.trans known'
      cases hbarred
    · cases known.symm.trans known'
    · cases hv.symm.trans harg
      exact h
  · intro h
    cases v with
    | int v => rw [Value.toDouble, Double.ofInt, Double.isNaN_ofRatio] at h; cases h
    | float d => exact .float known hv h

end Instr

namespace Fallback

variable {x : Instr} {op : Opcode}

theorem isSome_place? (hx : x.IsWhole op) (hop : op.operand ∈ [.name, .int, .target]) :
    (place? x).isSome := by
  have hoperand := Instr.hasOperand_of_isComplete hx.2 hx.1
  simp only [List.mem_cons, List.not_mem_nil, or_false] at hop
  by_cases hsym : x.sym.isEmpty
  · rcases hop with hop | hop | hop
    all_goals
      rw [hop] at hoperand
      simp_all [place?, Instr.hasOperand]
  · simp [place?, hsym]

theorem plain_eq_none_iff {f : Instr → Option Code} (scope : Option Text) (s : Session) :
    (plain f scope x s).1 = .ok none ↔ f x = none := by
  simp [plain]

theorem plain_ne_none {f : Instr → Option Code} {code : Code} (h : f x = some code)
    (scope : Option Text) (s : Session) : (plain f scope x s).1 ≠ .ok none := by
  simp [plain, h]

theorem onVariable_eq_none_iff {table : Cell → Home → Option (List Line)} (hx : x.IsWhole op)
    (hop : op.operand = .name)
    (htable : ∀ c home, (table c home).isNone = op.barred.contains home)
    (scope : Option Text) (s : Session) :
    (onVariable table scope x s).1 = .ok none ↔ Home.ofName x.sym ∈ op.barred := by
  rw [onVariable, plain_eq_none_iff, x.sym_nonempty hx.2 hx.1 hop, if_neg Bool.false_ne_true,
    Option.map_eq_none_iff, ← Option.isNone_iff_eq_none, htable, List.contains_iff_mem]

theorem onMemory_ne_none {table : Cell → Home → Option (List Line)} (hx : x.IsWhole op)
    (hop : op.operand = .int) (htable : ∀ c, (table c .mem).isSome) (scope : Option Text)
    (s : Session) : (onMemory table scope x s).1 ≠ .ok none := by
  obtain ⟨a, ha⟩ := x.exists_int hx.2 hx.1 hop
  obtain ⟨ls, hls⟩ := Option.isSome_iff_exists.mp (htable (.memory a))
  simp [onMemory, plain, ha, hls]

theorem place_ne_none {f : Place → Code} (hx : x.IsWhole op)
    (hop : op.operand ∈ [.name, .int, .target]) (scope : Option Text) (s : Session) :
    (plain (fun x => (place? x).map f) scope x s).1 ≠ .ok none := by
  obtain ⟨p, hp⟩ := Option.isSome_iff_exists.mp (isSome_place? hx hop)
  simp [plain, hp]

theorem onTop_ne_none {width : Width} {code : Code} (hx : x.IsWhole op)
    (hcode : inPlace (.known op) width .top .var = some code) (scope : Option Text) (s : Session) :
    (onTop width scope x s).1 ≠ .ok none :=
  plain_ne_none (by rw [hx.1, hcode]) scope s

theorem integer_ne_none {g : Int64 → Code} (hx : x.IsWhole op) (hop : op.operand = .int)
    (scope : Option Text) (s : Session) :
    (reading (fun x => x.integer >>= fun v => pure (g v)) scope x s).1 ≠ .ok none := by
  obtain ⟨v, hv⟩ := x.exists_int hx.2 hx.1 hop
  have hread : (x.integer >>= fun v => pure (g v)).run = .ok (some (g v)) := by
    rw [Instr.integer, hv]
    rfl
  rw [reading, hread]
  simp

theorem syscall_eq_none_iff {v : Int64} (hv : x.int? = some v) (scope : Option Text)
    (s : Session) : (syscall scope x s).1 = .ok none ↔ v < 16 ∨ 43 < v := by
  rw [syscall, plain_eq_none_iff, hv]
  by_cases hsmall : v < 16
  · simp [hsmall]
  · have hle : 16 ≤ v.toInt := Int64.le_iff_toInt_le.mp (Int64.not_lt.mp hsmall)
    have hlt := v.toInt_lt
    have hsub : (v - 16).toInt = v.toInt - 16 := by
      rw [Int64.toInt_sub]
      change (v.toInt - 16).bmod _ = _
      exact Int.bmod_eq_of_le (by omega) (by omega)
    have hlength : syscalls.length = 28 := rfl
    have hnone : syscalls[(v - 16).toInt.toNat]? = none ↔ 43 < v := by
      rw [List.getElem?_eq_none_iff, hlength, hsub, Int64.lt_iff_toInt_lt]
      change _ ↔ 43 < v.toInt
      omega
    simp only [Option.bind_eq_bind, Option.bind_some, hsmall, false_or, ← hnone]
    cases syscalls[(v - 16).toInt.toNat]? <;> simp

theorem pushFloat_eq_none_iff {v : Value} (hv : x.arg = some v) (scope : Option Text)
    (s : Session) : (pushFloat scope x s).1 = .ok none ↔ v.toDouble.isNaN := by
  simp only [pushFloat, hv]
  cases hnan : v.toDouble.isNaN with
  | true => simp [FloatPool.add, hnan]
  | false =>
    obtain ⟨label, pool, hadd⟩ := s.pool.exists_add hnan
    simp [hadd]

theorem label_ne_none (hx : x.IsWhole .label) (scope : Option Text) (s : Session) :
    (label scope x s).1 ≠ .ok none := by
  have hsym := x.sym_nonempty hx.2 hx.1 rfl
  unfold label
  split_ifs <;> simp_all

end Fallback

open Fallback in
/-- Every opcode has code of its own, which declines the untranslatable instructions and no
others. -/
theorem fallback_eq_none_iff {x : Instr} {op : Opcode} (hx : x.IsWhole op) {f : Fallback}
    (hf : fallback? op = some f) (scope : Option Text) (s : Session) :
    (f scope x s).1 = .ok none ↔ x.IsUntranslatable := by
  -- Outside the tables of registers, calls and literals there is nothing to decline.
  have hclear : op ∉ [.syscall, .pushFloat] → op.barred = [] →
      (f scope x s).1 ≠ .ok none → ((f scope x s).1 = .ok none ↔ x.IsUntranslatable) := by
    intro hop hbarred hne
    rw [Instr.isUntranslatable_iff_of_barred hx.1 hop (by simp [hbarred]), hbarred]
    exact iff_of_false hne (by simp)
  cases op with
  | syscall =>
    cases hf
    obtain ⟨v, hv⟩ := x.exists_int hx.2 hx.1 rfl
    rw [syscall_eq_none_iff hv, Instr.isUntranslatable_syscall_iff hx.1 hv]
  | pushFloat =>
    cases hf
    obtain ⟨v, hv⟩ := Option.isSome_iff_exists.mp (Instr.hasOperand_of_isComplete hx.2 hx.1)
    rw [pushFloat_eq_none_iff hv, Instr.isUntranslatable_float_iff hx.1 hv]
  | pushVarByte | popVarByte | pushVarWord | popVarWord | incVarUB | incVarB | incVarUW | incVarW
  | decVarUB | decVarB | decVarUW | decVarW =>
    cases hf
    rw [Instr.isUntranslatable_iff_of_barred hx.1 (by decide) (by decide)]
    refine onVariable_eq_none_iff hx rfl (fun c home => ?_) scope s
    rcases home with (_ | _ | _) | (_ | _ | _) | _ | _ <;> rfl
  | pushMemB | pushMemUB | pushMemW | pushMemUW | popMemByte | popMemWord =>
    cases hf
    exact hclear (by decide) rfl (onMemory_ne_none hx rfl (fun _ => rfl) scope s)
  | jump | call | bcs | bcc | bneg | bpos | bvc | bvs | bz | bnz | pushVarFloat | pushMemFloat
  | popVarFloat | popMemFloat | readIndexedVarFloat | writeIndexedVarFloat | incVarF | decVarF =>
    cases hf
    exact hclear (by decide) rfl (place_ne_none hx (by decide) scope s)
  | shlByte | shrByte | rolByte | rorByte | rol2Byte | ror2Byte | invByte | negB | shlWord | shrWord
  | shl8Word | shr8Word | rolWord | rorWord | rol2Word | ror2Word | invWord | negW =>
    cases hf
    exact hclear (by decide) rfl (onTop_ne_none hx rfl scope s)
  | pushByte | pushWord =>
    cases hf
    exact hclear (by decide) rfl (integer_ne_none hx rfl scope s)
  | label =>
    cases hf
    exact hclear (by decide) rfl (label_ne_none hx scope s)
  | _ =>
    cases hf
    exact hclear (by decide) rfl (fun h => by cases h)

open Selecting

/-- An instruction on its own has code or is untranslatable. -/
theorem Selection.ends_alone_iff {x : Instr} {op : Opcode} (hx : x.IsWhole op)
    (scope : Option Text) (s : Session) :
    (Ends (alone scope op x) s none ↔ x.IsUntranslatable) ∧
      ((∃ f, Ends (alone scope op x) s (some f)) ↔ ¬ x.IsUntranslatable) := by
  obtain ⟨f, hf, hanswers⟩ := fallback_answers hx
  obtain ⟨⟨code, hcode⟩, -⟩ := hanswers scope s
  have hrun := alone_run hf (Prod.ext hcode rfl)
  rw [← fallback_eq_none_iff hx hf scope s, hcode, Except.ok.injEq]
  simp only [ends_iff_of_run hrun]
  cases code <;> simp

namespace Catalog

variable {window : Int} {idioms : List Idiom} {rules : List Rule} {c : Catalog}

theorem ends_select_of_isWhole (hmake : make window idioms rules = .ok c) (hwindow : 0 ≤ window)
    (scope : Option Text) {code rest : List Instr} {x : Instr}
    (hreach : reach window.toNat code = x :: rest) {op : Opcode} (hx : x.IsWhole op)
    (s : Session) :
    (Ends (c.select scope code) s none ↔
      Ends (offers idioms rules (x :: rest)) s [] ∧ x.IsUntranslatable) ∧
    ((∃ f, Ends (c.select scope code) s (some f)) ↔
      (∃ f fs, Ends (offers idioms rules (x :: rest)) s (f :: fs)) ∨
        Ends (offers idioms rules (x :: rest)) s [] ∧ ¬ x.IsUntranslatable) := by
  have hends := ends_select_iff hmake hwindow scope hreach hx.1 s
  have halone := fun t => ends_alone_iff hx scope t
  constructor
  · rw [hends]
    constructor
    · rintro (⟨t, hfs, hnone⟩ | ⟨f, fs, -, g, -, hg⟩)
      · exact ⟨⟨t, hfs⟩, (halone t).1.mp hnone⟩
      · cases hg
    · rintro ⟨⟨t, hfs⟩, hx⟩
      exact .inl ⟨t, hfs, (halone t).1.mpr hx⟩
  · simp only [hends]
    constructor
    · rintro ⟨f, ⟨t, hfs, hsome⟩ | ⟨f, fs, hfs, -⟩⟩
      · exact .inr ⟨⟨t, hfs⟩, (halone t).2.mp ⟨f, hsome⟩⟩
      · exact .inl ⟨f, fs, hfs⟩
    · rintro (⟨f, fs, hfs⟩ | ⟨⟨t, hfs⟩, hx⟩)
      · obtain ⟨g, hg⟩ := exists_argmax_cons f fs
        exact ⟨g, .inr ⟨f, fs, hfs, g, hg, rfl⟩⟩
      · obtain ⟨f, hf⟩ := (halone t).2.mpr hx
        exact ⟨f, .inl ⟨t, hfs, hf⟩⟩

/-- Selection fails exactly at an instruction that lacks an operand, and at an untranslatable one
where no pattern yields a fragment. Everywhere else it gives a fragment, unless a pattern goes
wrong, and patterns that are sound do not. -/
theorem select_eq_none_iff (hmake : make window idioms rules = .ok c) (hwindow : 1 ≤ window)
    (scope : Option Text) (x : Instr) (code : List Instr) (s : Session) :
    (Ends (c.select scope (x :: code)) s none ↔ ¬ x.isComplete ∨
      Ends (offers idioms rules (reach window.toNat (x :: code))) s [] ∧ x.IsUntranslatable) ∧
    ((∃ f, Ends (c.select scope (x :: code)) s (some f)) ↔ x.isComplete ∧
      ((∃ f fs, Ends (offers idioms rules (reach window.toNat (x :: code))) s (f :: fs)) ∨
        Ends (offers idioms rules (reach window.toNat (x :: code))) s [] ∧
          ¬ x.IsUntranslatable)) ∧
    ((∀ i ∈ idioms, i.IsSound) → (∀ r ∈ rules, r.IsSound) →
      ∃ fs, Ends (offers idioms rules (reach window.toNat (x :: code))) s fs) := by
  have hwell := (make_eq_ok_iff.mp hmake).1
  refine and_assoc.mp ⟨?_, fun hidioms hrules => ?_⟩
  · by_cases hcomplete : x.isComplete
    · obtain ⟨op, hx⟩ := Instr.exists_isWhole hcomplete
      have hreach := reach_cons (show 0 < window.toNat by omega) hcomplete code
      rw [or_iff_right (not_not.mpr hcomplete), and_iff_right hcomplete, hreach]
      exact ends_select_of_isWhole hmake (by omega) scope hreach hx s
    · have hreach : reach window.toNat (x :: code) = [] := by
        rw [reach, List.take_cons (show 0 < window.toNat by omega),
          List.takeWhile_cons_of_neg hcomplete]
      simp [select_eq_pure hmake (by omega) scope hreach, ends_pure_iff, hcomplete]
  · obtain ⟨fs, pool, hrun, -⟩ := offers_gives (fun _ hy => isComplete_of_mem_reach hy) hidioms
      hrules hwell s
    exact ⟨fs, _, hrun⟩

/-- `v := X`, where the push of X has no code on its own. -/
def pushedRegister : List Instr :=
  [{ op := .known .pushVarByte, sym := "X" }, { op := .known .popVarByte, sym := "v" }]

/-- A window for one instruction fails there, a wider one does not. -/
theorem select_eq_none_iff_pushedRegister : ∃ narrow wide f,
    make 1 Idiom.all Assignment.rules = .ok narrow ∧ make 2 Idiom.all Assignment.rules = .ok wide ∧
      Ends (narrow.select none pushedRegister) .start none ∧
      Ends (wide.select none pushedRegister) .start (some f) := by
  have hnarrow : Ends (offers Idiom.all Assignment.rules (reach 1 pushedRegister)) .start [] :=
    ends_iff.mpr (by decide +kernel)
  have hwide : Ends (offers Idiom.all Assignment.rules (reach 2 pushedRegister)) .start
      [⟨"byte var = var", [[Asm.stx (.direct (.name "v"))]], 2, false⟩] :=
    ends_iff.mpr (by decide +kernel)
  have hbarred : Home.reg .x ∈ Opcode.pushVarByte.barred := by decide
  have hnone := (select_eq_none_iff (make_all 1) (by decide) none _ _ .start).1.mpr
    (.inr ⟨hnarrow, .register rfl hbarred rfl⟩)
  obtain ⟨f, hsome⟩ := (select_eq_none_iff (make_all 2) (by decide) none _ _ .start).2.1.mpr
    ⟨by decide, .inl ⟨_, _, hwide⟩⟩
  exact ⟨_, _, f, make_all 1, make_all 2, hnone, hsome⟩

end Catalog

end Stack6502
