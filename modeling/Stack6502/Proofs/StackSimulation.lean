import Mathlib.Tactic.SplitIfs
import Stack6502.Lower.Fallback
import Stack6502.Proofs.StackTemplates

/-!
# Instructions on their own simulate the operand stack

Well typed instructions, lowered one at a time and run one after another, leave the processor with
what the operand stack says in its memory.
-/
namespace Stack6502

def Instr.standalone? (scope : Option Text) (x : Instr) (s : Session) : Option (Code × Session) :=
  match x.op with
  | .stray _ => none
  | .known op => (fallback? op).bind fun f =>
    match f scope x s with
    | (.ok (some code), s') => some (code, s')
    | _ => none

def standaloneLines (scope : Option Text) : List Instr → Session → Option (List Line)
  | [], _ => some []
  | x :: xs, s =>
    (x.standalone? scope s).bind fun r =>
      (standaloneLines scope xs r.2).map fun ls => r.1.lines ++ ls

/-- All that the instructions read and write in memory is off the evaluation stack. -/
def RunsFree (L : Layout) : List Instr → Operands → Prop
  | [], _ => True
  | x :: xs, σ =>
    (∀ s, x.site? L σ.stack = some s → s.IsFree) ∧
      ∀ σ', x.exec L σ = some σ' → RunsFree L xs σ'

theorem Home.ofName_eq_var {sym : Text} (h : (Home.ofName sym).isRegister = false) :
    Home.ofName sym = .var := by
  unfold Home.ofName at *
  split_ifs at *
  all_goals first | rfl | cases h

section

open Operands Asm

variable {L : Layout} {x : Instr} {op : Opcode} {σ σ' : Operands} {ts : List Width}

def Instr.IsSimulated (L : Layout) (x : Instr) (σ σ' : Operands) : Prop :=
  ∃ code, (∀ scope s, x.standalone? scope s = some (code, s)) ∧ Simulates L code.lines σ σ'

theorem Instr.IsSimulated.of_fallback {f : Fallback} {code : Code} (known : x.op = .known op)
    (hf : fallback? op = some f) (hcode : ∀ scope s, f scope x s = (.ok (some code), s))
    (h : Simulates L code.lines σ σ') : x.IsSimulated L σ σ' := by
  refine ⟨code, fun scope s => ?_, h⟩
  simp [standalone?, known, hf, hcode]

theorem Instr.IsSimulated.of_group {f : Fallback} {ls : List Line} (known : x.op = .known op)
    (hf : fallback? op = some f) (hcode : ∀ scope s, f scope x s = (.ok (some [ls]), s))
    (h : Simulates L ls σ σ') : x.IsSimulated L σ σ' := by
  refine .of_fallback known hf hcode ?_
  rwa [Code.lines, List.flatten_singleton]

section

variable {table : Cell → Home → Option (List Line)} {ls : List Line}

theorem Instr.standalone?_of_variable (hx : x.isComplete)
    (hname : (Home.ofName x.sym).isRegister = false) (known : x.op = .known op)
    (hop : op.operand = .name) (hf : fallback? op = some (Fallback.onVariable table))
    (hls : table (.named x.sym) .var = some ls) (scope : Option Text) (s : Session) :
    x.standalone? scope s = some ([ls], s) := by
  have hcode : Fallback.onVariable table scope x s = (.ok (some [ls]), s) := by
    simp [Fallback.onVariable, Fallback.plain, x.sym_nonempty hx known hop,
      Home.ofName_eq_var hname, hls]
  simp [standalone?, known, hf, hcode]

theorem Instr.standalone?_of_memory {a : Int64} (known : x.op = .known op) (ha : x.int? = some a)
    (hf : fallback? op = some (Fallback.onMemory table)) (hls : table (.memory a) .mem = some ls)
    (scope : Option Text) (s : Session) : x.standalone? scope s = some ([ls], s) := by
  have hcode : Fallback.onMemory table scope x s = (.ok (some [ls]), s) := by
    simp [Fallback.onMemory, Fallback.plain, ha, hls]
  simp [standalone?, known, hf, hcode]

theorem Instr.IsSimulated.of_variable (hx : x.isComplete)
    (hname : (Home.ofName x.sym).isRegister = false) (known : x.op = .known op)
    (hop : op.operand = .name) (hf : fallback? op = some (Fallback.onVariable table))
    (hls : table (.named x.sym) .var = some ls) (h : Simulates L ls σ σ') :
    x.IsSimulated L σ σ' := by
  refine ⟨[ls], standalone?_of_variable hx hname known hop hf hls, ?_⟩
  rwa [Code.lines, List.flatten_singleton]

theorem Instr.IsSimulated.of_memory {a : Int64} (known : x.op = .known op) (ha : x.int? = some a)
    (hf : fallback? op = some (Fallback.onMemory table))
    (hls : table (.memory a) .mem = some ls) (h : Simulates L ls σ σ') : x.IsSimulated L σ σ' := by
  refine ⟨[ls], standalone?_of_memory known ha hf hls, ?_⟩
  rwa [Code.lines, List.flatten_singleton]

end

theorem Instr.IsSimulated.of_byteOp {o : ByteOp} {f : Byte → Byte} (known : x.op = .known op)
    (hf : fallback? op = some (Fallback.onTop .byte)) (ho : ByteOp.ofOpcode? op = some o)
    (happly : ∀ carry v, o.apply carry v = f v) {b : Byte} {st : List Entry}
    (hst : σ.stack = .byte b :: st) :
    x.IsSimulated L σ { σ with stack := .byte (f b) :: st } := by
  refine .of_group known hf (fun scope s => ?_) (.byteOp o (fun carry => happly carry b) hst)
  simp [Fallback.onTop, Fallback.plain, inPlace, known, ho, ByteOp.code]

theorem Instr.IsSimulated.of_wordOp {o : WordOp} {f : Word → Word} (known : x.op = .known op)
    (hf : fallback? op = some (Fallback.onTop .word)) (ho : WordOp.ofOpcode? op = some o)
    (happly : ∀ carry v, o.apply carry v = f v) {w : Word} {st : List Entry}
    (hst : σ.stack = .word w :: st) :
    x.IsSimulated L σ { σ with stack := .word (f w) :: st } := by
  refine .of_group known hf (fun scope s => ?_) (.wordOp o (fun carry => happly carry w) hst)
  simp [Fallback.onTop, Fallback.plain, inPlace, known, ho, WordOp.code]

/-- Instructions that read or write memory. -/
theorem Instr.isSimulated_of_site {sig : Signature} {s : Site} (hx : x.isComplete)
    (hname : (Home.ofName x.sym).isRegister = false) (known : x.op = .known op)
    (hs : op.signature? = some sig) (hw : σ.stack.map Entry.width = sig.takes ++ ts)
    (hsite : x.site? L σ.stack = some s) (free : s.IsFree) (hexec : x.exec L σ = some σ')
    (hdepth : σ'.stack.length ≤ 255) : x.IsSimulated L σ σ' := by
  have named := Cell.LiesAt.named L x.sym
  cases op with
  | pushVarByte =>
    obtain rfl : _ = s := by simpa [site?, known] using hsite
    obtain rfl : _ = σ' := by simpa [exec, known, hsite] using hexec
    exact .of_variable hx hname known rfl rfl rfl (.loadByte named free hdepth)
  | pushVarWord =>
    obtain rfl : _ = s := by simpa [site?, known] using hsite
    obtain rfl : _ = σ' := by simpa [exec, known, hsite] using hexec
    exact .of_variable hx hname known rfl rfl rfl (.loadWord named free hdepth)
  | pushMemB | pushMemUB =>
    obtain ⟨a, ha⟩ := x.exists_int hx known rfl
    obtain rfl : _ = s := by simpa [site?, known, ha] using hsite
    obtain rfl : _ = σ' := by simpa [exec, known, hsite] using hexec
    exact .of_memory known ha rfl rfl (.loadByte (.memory L a) free hdepth)
  | pushMemW | pushMemUW =>
    obtain ⟨a, ha⟩ := x.exists_int hx known rfl
    obtain rfl : _ = s := by simpa [site?, known, ha] using hsite
    obtain rfl : _ = σ' := by simpa [exec, known, hsite] using hexec
    exact .of_memory known ha rfl rfl (.loadWord (.memory L a) free hdepth)
  | popVarByte =>
    cases hs
    obtain ⟨b, st, hst, -⟩ := Entry.byte_of_width hw
    obtain rfl : _ = s := by simpa [site?, known] using hsite
    obtain rfl : _ = σ' := by simpa [exec, known, site?, store, hst, Entry.width] using hexec
    exact .of_variable hx hname known rfl rfl rfl (.storeByte named free hst)
  | popVarWord =>
    cases hs
    obtain ⟨w, st, hst, -⟩ := Entry.word_of_width hw
    obtain rfl : _ = s := by simpa [site?, known] using hsite
    obtain rfl : _ = σ' := by simpa [exec, known, site?, store, hst, Entry.width] using hexec
    exact .of_variable hx hname known rfl rfl rfl (.storeWord named free hst)
  | popMemByte =>
    cases hs
    obtain ⟨a, ha⟩ := x.exists_int hx known rfl
    obtain ⟨b, st, hst, -⟩ := Entry.byte_of_width hw
    obtain rfl : _ = s := by simpa [site?, known, ha] using hsite
    obtain rfl : _ = σ' := by simpa [exec, known, site?, ha, store, hst, Entry.width] using hexec
    exact .of_memory known ha rfl rfl (.storeByte (.memory L a) free hst)
  | popMemWord =>
    cases hs
    obtain ⟨a, ha⟩ := x.exists_int hx known rfl
    obtain ⟨w, st, hst, -⟩ := Entry.word_of_width hw
    obtain rfl : _ = s := by simpa [site?, known, ha] using hsite
    obtain rfl : _ = σ' := by simpa [exec, known, site?, ha, store, hst, Entry.width] using hexec
    exact .of_memory known ha rfl rfl (.storeWord (.memory L a) free hst)
  | readIndexedVarByte =>
    cases hs
    obtain ⟨i, st, hst, -⟩ := Entry.byte_of_width hw
    obtain rfl : _ = s := by simpa [site?, known, hst] using hsite
    obtain rfl : _ = σ' := by simpa [exec, known, site?, Operands.read, hst] using hexec
    exact .of_fallback known rfl (fun _ _ => rfl) (Simulates.readByte free hst)
  | readIndexedVarWord =>
    cases hs
    obtain ⟨i, st, hst, -⟩ := Entry.byte_of_width hw
    obtain rfl : _ = s := by simpa [site?, known, hst] using hsite
    obtain rfl : _ = σ' := by simpa [exec, known, site?, Operands.read, hst] using hexec
    exact .of_fallback known rfl (fun _ _ => rfl) (Simulates.readWord free hst)
  | writeIndexedVarByte =>
    cases hs
    obtain ⟨i, st, hst, hw⟩ := Entry.byte_of_width hw
    obtain ⟨b, st, rfl, -⟩ := Entry.byte_of_width hw
    obtain rfl : _ = s := by simpa [site?, known, hst] using hsite
    obtain rfl : _ = σ' := by simpa [exec, known, site?, write, hst, Entry.width] using hexec
    exact .of_fallback known rfl (fun _ _ => rfl) (Simulates.writeByte free hst)
  | writeIndexedVarWord =>
    cases hs
    obtain ⟨i, st, hst, hw⟩ := Entry.byte_of_width hw
    obtain ⟨w, st, rfl, -⟩ := Entry.word_of_width hw
    obtain rfl : _ = s := by simpa [site?, known, hst] using hsite
    obtain rfl : _ = σ' := by simpa [exec, known, site?, write, hst, Entry.width] using hexec
    exact .of_fallback known rfl (fun _ _ => rfl) (Simulates.writeWord free hst)
  | incVarUB | incVarB =>
    obtain rfl : _ = s := by simpa [site?, known] using hsite
    obtain rfl : _ = σ' := by simpa [exec, known, hsite] using hexec
    exact .of_variable hx hname known rfl rfl rfl (.incByte named free)
  | incVarUW | incVarW =>
    obtain rfl : _ = s := by simpa [site?, known] using hsite
    obtain rfl : _ = σ' := by simpa [exec, known, hsite] using hexec
    exact .of_variable hx hname known rfl rfl rfl (.incWord named free)
  | decVarUB | decVarB =>
    obtain rfl : _ = s := by simpa [site?, known] using hsite
    obtain rfl : _ = σ' := by simpa [exec, known, hsite] using hexec
    exact .of_variable hx hname known rfl rfl rfl (.decByte named free)
  | decVarUW | decVarW =>
    obtain rfl : _ = s := by simpa [site?, known] using hsite
    obtain rfl : _ = σ' := by simpa [exec, known, hsite] using hexec
    exact .of_variable hx hname known rfl rfl rfl (.decWord named free)
  | _ => simp [site?, known] at hsite

/-- Instructions that work on the stack alone. -/
theorem Instr.isSimulated_of_stack {sig : Signature} (hx : x.isComplete) (known : x.op = .known op)
    (hs : op.signature? = some sig) (hw : σ.stack.map Entry.width = sig.takes ++ ts)
    (hsite : x.site? L σ.stack = none) (hexec : x.exec L σ = some σ')
    (hdepth : σ'.stack.length ≤ 255) : x.IsSimulated L σ σ' := by
  cases op with
  | pushByte =>
    obtain ⟨v, hv⟩ := x.exists_int hx known rfl
    obtain rfl : _ = σ' := by simpa [exec, known, hv] using hexec
    have hcode (scope : Option Text) (s : Session) : Fallback.pushByte scope x s =
        (.ok (some (Code.each [lda (lowByte v), sta (low 0), dex])), s) := by
      simp [Fallback.pushByte, Fallback.reading, integer, hv]
      rfl
    exact .of_fallback known rfl hcode (Simulates.pushByte v hdepth)
  | pushWord =>
    obtain ⟨v, hv⟩ := x.exists_int hx known rfl
    obtain rfl : _ = σ' := by simpa [exec, known, hv] using hexec
    have hcode (scope : Option Text) (s : Session) : Fallback.pushWord scope x s =
        (.ok (some (Code.each [lda (lowByte v), sta (low 0),
          lda (highByte v), sta (high 0), dex])), s) := by
      simp [Fallback.pushWord, Fallback.reading, integer, hv]
      rfl
    exact .of_fallback known rfl hcode (Simulates.pushWord v hdepth)
  | discardByte =>
    cases hs
    obtain ⟨b, st, hst, -⟩ := Entry.byte_of_width hw
    obtain rfl : _ = σ' := by simpa [exec, known, Operands.drop, hst, Entry.width] using hexec
    exact .of_fallback known rfl (fun _ _ => rfl) (Simulates.drop hst)
  | discardWord =>
    cases hs
    obtain ⟨w, st, hst, -⟩ := Entry.word_of_width hw
    obtain rfl : _ = σ' := by simpa [exec, known, Operands.drop, hst, Entry.width] using hexec
    exact .of_fallback known rfl (fun _ _ => rfl) (Simulates.drop hst)
  | addUB | addB =>
    cases hs
    obtain ⟨r, st, hst, hw⟩ := Entry.byte_of_width hw
    obtain ⟨l, st, rfl, -⟩ := Entry.byte_of_width hw
    obtain rfl : _ = σ' := by simpa [exec, known, onBytes, hst] using hexec
    refine .of_fallback known rfl (fun _ _ => rfl) (Simulates.onBytes (fun c => ?_) hst)
    simp [Byte.sum_false]
  | subUB | subB =>
    cases hs
    obtain ⟨r, st, hst, hw⟩ := Entry.byte_of_width hw
    obtain ⟨l, st, rfl, -⟩ := Entry.byte_of_width hw
    obtain rfl : _ = σ' := by simpa [exec, known, onBytes, hst] using hexec
    refine .of_fallback known rfl (fun _ _ => rfl) (Simulates.onBytes (fun c => ?_) hst)
    simp [Byte.sum_true_not]
  | andByte | orByte | xorByte =>
    cases hs
    obtain ⟨r, st, hst, hw⟩ := Entry.byte_of_width hw
    obtain ⟨l, st, rfl, -⟩ := Entry.byte_of_width hw
    obtain rfl : _ = σ' := by simpa [exec, known, onBytes, hst] using hexec
    refine .of_fallback known rfl (fun _ _ => rfl) (Simulates.onBytes (fun c => ?_) hst)
    simp
  | andWord | orWord | xorWord =>
    cases hs
    obtain ⟨r, st, hst, hw⟩ := Entry.word_of_width hw
    obtain ⟨l, st, rfl, -⟩ := Entry.word_of_width hw
    obtain rfl : _ = σ' := by simpa [exec, known, onWords, hst] using hexec
    exact .of_fallback known rfl (fun _ _ => rfl)
      (Simulates.onWords (fun _ _ => rfl) (fun _ _ => by simp) (fun _ _ => by simp) hst)
  | shlByte | shrByte | rol2Byte | ror2Byte | invByte | negB =>
    cases hs
    obtain ⟨b, st, hst, -⟩ := Entry.byte_of_width hw
    obtain rfl : _ = σ' := by simpa [exec, known, onByte, hst] using hexec
    exact .of_byteOp known rfl rfl (fun _ _ => rfl) hst
  | shlWord | shrWord | shl8Word | shr8Word | rol2Word | ror2Word | invWord | negW =>
    cases hs
    obtain ⟨w, st, hst, -⟩ := Entry.word_of_width hw
    obtain rfl : _ = σ' := by simpa [exec, known, onWord, hst] using hexec
    exact .of_wordOp known rfl rfl (fun _ _ => rfl) hst
  | notByte =>
    cases hs
    obtain ⟨b, st, hst, -⟩ := Entry.byte_of_width hw
    obtain rfl : _ = σ' := by simpa [exec, known, onByte, hst] using hexec
    exact .of_fallback known rfl (fun _ _ => rfl) (Simulates.notByte hst)
  | notWord =>
    cases hs
    obtain ⟨w, st, hst, -⟩ := Entry.word_of_width hw
    obtain rfl : _ = σ' := by simpa [exec, known, onWord, hst] using hexec
    exact .of_fallback known rfl (fun _ _ => rfl) (Simulates.notWord hst)
  | ub2uword =>
    cases hs
    obtain ⟨b, st, hst, -⟩ := Entry.byte_of_width hw
    obtain rfl : _ = σ' := by simpa [exec, known, onByte, hst] using hexec
    exact .of_fallback known rfl (fun _ _ => rfl) (Simulates.zeroExtend hst)
  | b2word =>
    cases hs
    obtain ⟨b, st, hst, -⟩ := Entry.byte_of_width hw
    obtain rfl : _ = σ' := by simpa [exec, known, onByte, hst] using hexec
    exact .of_fallback known rfl (fun _ _ => rfl) (Simulates.signExtend hst)
  | b2ub | ub2b =>
    cases hs
    obtain ⟨b, st, hst, -⟩ := Entry.byte_of_width hw
    obtain rfl : _ = σ' := by simpa [exec, known, onByte, hst] using hexec
    exact .of_fallback known rfl (fun _ _ => rfl) (Simulates.relabel hst fun _ _ h => h)
  | lsb =>
    cases hs
    obtain ⟨w, st, hst, -⟩ := Entry.word_of_width hw
    obtain rfl : _ = σ' := by simpa [exec, known, onWord, hst] using hexec
    exact .of_fallback known rfl (fun _ _ => rfl) (Simulates.relabel hst fun _ _ h => h.1)
  | msb =>
    cases hs
    obtain ⟨w, st, hst, -⟩ := Entry.word_of_width hw
    obtain rfl : _ = σ' := by simpa [exec, known, onWord, hst] using hexec
    exact .of_fallback known rfl (fun _ _ => rfl) (Simulates.highByte hst)
  | _ => simp [exec, known, hsite] at hexec

theorem Instr.isSimulated {sig : Signature} (hx : x.isComplete)
    (hname : (Home.ofName x.sym).isRegister = false) (known : x.op = .known op)
    (hs : op.signature? = some sig) (hw : σ.stack.map Entry.width = sig.takes ++ ts)
    (hfree : ∀ s, x.site? L σ.stack = some s → s.IsFree) (hexec : x.exec L σ = some σ')
    (hdepth : σ'.stack.length ≤ 255) : x.IsSimulated L σ σ' := by
  cases hsite : x.site? L σ.stack with
  | none => exact isSimulated_of_stack hx known hs hw hsite hexec hdepth
  | some s => exact isSimulated_of_site hx hname known hs hw hsite (hfree s hsite) hexec hdepth

end

/-- Typed instructions that pass the check of their operands and name no register have code of
their own. Run from a state that has the operands in its memory, that code leaves what the operand
stack says. -/
theorem standaloneLines_simulate (L : Layout) (scope : Option Text) (s : Session)
    {code : List Instr} {σ : Operands} {vs : List Width} {c : Cpu}
    (hcomplete : ∀ x ∈ code, x.isComplete)
    (hnames : ∀ x ∈ code, (Home.ofName x.sym).isRegister = false)
    (htyped : Typed code (σ.stack.map Entry.width) vs) (hfree : RunsFree L code σ)
    (hc : Represents c σ) :
    ∃ ls σ' d, standaloneLines scope code s = some ls ∧ execAll L code σ = some σ' ∧
      σ'.stack.map Entry.width = vs ∧ L.run ls c = some d ∧ Represents d σ' := by
  generalize hws : σ.stack.map Entry.width = ws at htyped
  -- The widths on the stack are what typing speaks of; the state and the machine vary with them.
  induction htyped generalizing σ c s with
  | nil => exact ⟨[], σ, c, rfl, rfl, hws, rfl, hc⟩
  | @cons x xs op sig us vs known signature depth rest ih =>
    have hx := hcomplete x List.mem_cons_self
    obtain ⟨τ, hτ, hwidths⟩ := x.exec_of_signature L hx known signature hws
    have hdepth : τ.stack.length ≤ 255 := by
      rwa [← List.length_map (f := Entry.width), hwidths]
    obtain ⟨block, hblock, hsim⟩ := x.isSimulated hx (hnames x List.mem_cons_self) known signature
      hws hfree.1 hτ hdepth
    obtain ⟨d, hd, hdτ⟩ := hsim c hc
    obtain ⟨ls, σ', e, hls, hσ', hvs, he, heσ'⟩ := ih s
      (fun y hy => hcomplete y (List.mem_cons_of_mem x hy))
      (fun y hy => hnames y (List.mem_cons_of_mem x hy)) (hfree.2 τ hτ) hdτ hwidths
    refine ⟨block.lines ++ ls, σ', e, ?_, ?_, hvs, ?_, heσ'⟩
    · simp [standaloneLines, hblock, hls]
    · simp [execAll, hτ, hσ']
    · rw [Layout.run_append hd, he]

namespace Halving

def layout : Layout := ⟨fun sym => if sym = "a" then 0x2000 else 0x1000, fun _ c => c⟩

/-- An element of an array of words is halved and put into a variable, which then counts down. -/
def code : List Instr :=
  [{ op := .known .readIndexedVarWord, sym := "a" }, { op := .known .shrWord },
    { op := .known .popVarWord, sym := "w" }, { op := .known .decVarUW, sym := "w" }]

def memory : Memory := Function.update (fun _ => 0) 0xceff 3

end Halving

open Halving in
theorem standaloneLines_simulate_halving :
    ∃ ls σ' d, standaloneLines none code .start = some ls ∧
      execAll layout code ⟨memory, [.byte 3]⟩ = some σ' ∧ σ'.stack.map Entry.width = [] ∧
      layout.run ls ⟨0, 254, 0, 0xff, false, false, false, false, memory⟩ = some d ∧
      Represents d σ' := by
  refine standaloneLines_simulate layout none .start (by decide) (by decide) ?_ ?_ ?_
  · exact @Typed.cons _ _ _ ⟨[.byte], [.word]⟩ [] _ rfl rfl (by decide) <|
      @Typed.cons _ _ _ ⟨[.word], [.word]⟩ [] _ rfl rfl (by decide) <|
      @Typed.cons _ _ _ ⟨[.word], []⟩ [] _ rfl rfl (by decide) <|
      @Typed.cons _ _ _ ⟨[], []⟩ [] _ rfl rfl (by decide) .nil
  · simp only [RunsFree, code, Instr.site?, Option.some.injEq, forall_eq']
    refine ⟨by decide, fun _ _ => ⟨fun _ h => ?_, fun _ _ =>
      ⟨by decide, fun _ _ => ⟨by decide, fun _ _ => trivial⟩⟩⟩⟩
    cases h
  · have hslot : memory (lowSlot 255) = 3 := by decide
    exact ⟨rfl, ⟨hslot, trivial⟩, fun _ _ => rfl⟩

end Stack6502
