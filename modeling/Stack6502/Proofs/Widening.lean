import Stack6502.Proofs.ByteAssignments
import Stack6502.Proofs.InPlaceHomes
import Stack6502.Proofs.WordCopies

/-!
# Bytes widened to words

A byte in a register or in memory is widened into a pair of registers or into two bytes of memory,
with zeros or with copies of its sign. The source is read before anything is written, so it may be
a part of the destination.
-/
namespace Stack6502

open Asm Layout

/-! ### Places of words -/

structure Located where
  home : Home
  address : Int
  deriving DecidableEq, Repr

namespace Located

def low (v : Located) : Word := .ofInt 16 v.address

def high (v : Located) : Word := .ofInt 16 (v.address + 1)

def byte? (v : Located) (c : Cpu) : Option Byte := v.home.byte? v.low c

def word? (v : Located) (c : Cpu) : Option Word := v.home.word? v.low v.high c

def bytes (v : Located) (width : Width) : List Word :=
  if v.home.isRegister then []
  else match width with
    | .byte => [v.low]
    | .word => [v.low, v.high]

variable {v : Located} {c d : Cpu}

theorem low_ne_high (v : Located) : v.low ≠ v.high := ofInt_ne_succ v.address

/-- Memory into which a word was put holds it, and nothing else has changed. -/
theorem word?_of_put (hhome : v.home.isRegister = false) {w : Word}
    (h : d.mem = c.mem.put v.low v.high w) :
    v.word? d = some w ∧ ∀ p ∉ v.bytes .word, d.mem p = c.mem p := by
  have hword : v.word? d = some (.ofBytes (d.mem v.high) (d.mem v.low)) := by
    obtain ⟨home, a⟩ := v
    cases home with
    | reg | pair => cases hhome
    | var | mem => rfl
  have hne := v.low_ne_high
  refine ⟨?_, fun p hp => ?_⟩
  · simp [hword, h, Memory.put, hne, Word.ofBytes_high_low]
  · obtain ⟨hlow, hhigh⟩ : p ≠ v.low ∧ p ≠ v.high := by simpa [bytes, hhome] using hp
    rw [h, Memory.put, Function.update_of_ne hhigh, Function.update_of_ne hlow]

end Located

/-- Code written for the one is code for the other. -/
def WordValue.IsAt (L : Layout) (v : Located) : WordValue → Prop
  | .pair p => v.home = .pair p
  | .cell k => v.home.isRegister = false ∧ k.LiesAt L v.address

def Cpu.reg (c : Cpu) : Reg → Byte
  | .a => c.a
  | .x => c.x
  | .y => c.y

/-- A byte that is read without an index. -/
def ByteValue.Reads (L : Layout) (c : Cpu) (b : Byte) : ByteValue → Prop
  | .reg r => c.reg r = b
  | .loc place setup usesY => setup = [] ∧ usesY = false ∧ L.fetch? c place = some b

section

variable {L : Layout} {c : Cpu} {b : Byte} {v : ByteValue}

theorem Layout.load_of_fetch {o : Operand} (h : L.fetch? c o = some b) (set : Cpu → Byte → Cpu) :
    L.load c o set = some ⟨0, set c b⟩ := by
  rw [load, h, Option.map_some]

namespace ByteValue

theorem Reads.run_toReg (hv : v.Reads L c b) (r : Reg) :
    ∃ e, L.run (v.toReg r).lines c = some e ∧ e.reg r = b ∧ e.mem = c.mem := by
  cases v with
  | reg s =>
    obtain rfl : c.reg s = b := hv
    cases s <;> cases r <;> simp [toReg, moveReg, Code.lines, Cpu.reg]
  | loc place setup usesY =>
    obtain ⟨rfl, rfl, hfetch⟩ := hv
    cases r <;> simp [toReg, loadReg, Code.lines, load_of_fetch hfetch, Cpu.reg]

theorem Reads.run_toPlace (hv : v.Reads L c b) {o : Operand} {p : Word}
    (ho : ∀ x y, L.address? x y o = some p) :
    ∃ e, L.run (v.toPlace o).lines c = some e ∧ e.mem = Function.update c.mem p b := by
  cases v with
  | reg s =>
    obtain rfl : c.reg s = b := hv
    cases s <;> simp [toPlace, storeReg, Code.lines, save_of_address (ho _ _), Cpu.reg]
  | loc place setup usesY =>
    obtain ⟨rfl, rfl, hfetch⟩ := hv
    simp [toPlace, Code.lines, load_of_fetch hfetch, save_of_address (ho _ _)]

theorem toA_eq_toReg (v : ByteValue) : v.toA = v.toReg .a := by
  cases v <;> rfl

end ByteValue

/-- The code puts `w` into the destination, wherever that is, and changes no other memory. -/
def PutsWord (L : Layout) (c : Cpu) (code : Code) (d : WordValue) (w : Word) : Prop :=
  ∀ dest, d.IsAt L dest →
    ∃ e, L.run code.lines c = some e ∧ dest.word? e = some w ∧
      ∀ p ∉ dest.bytes .word, e.mem p = c.mem p

namespace WordValue

theorem putsWord_zeroExtend (hv : v.Reads L c b) (d : WordValue) :
    PutsWord L c (zeroExtend v d) d (b.setWidth 16) := by
  rintro ⟨home, a⟩ hd
  rw [← Word.ofBytes_zeroExtend]
  cases d with
  | pair p =>
    obtain rfl : home = .pair p := hd
    obtain ⟨e, he, hlow, hmem⟩ := hv.run_toReg (lowReg p)
    have hlines : (zeroExtend v (.pair p)).lines =
        (v.toReg (lowReg p)).lines ++ zeroHigh (.pair p) := by
      simp [zeroExtend, Code.lines]
    rw [hlines, run_append he]
    cases p <;> simp_all [zeroHigh, Located.word?, Home.word?, lowReg, Cpu.reg]
  | cell k =>
    obtain ⟨hhome, hk⟩ := hd
    obtain ⟨e, he, hmem⟩ := hv.run_toPlace hk.lo
    have hlines : (zeroExtend v (.cell k)).lines =
        (v.toPlace k.lo).lines ++ zeroHigh (.cell k) := by
      simp [zeroExtend, Code.lines]
    have hrun : ∃ e', L.run (zeroHigh (.cell k)) e = some e' ∧
        e'.mem = c.mem.put (.ofInt 16 a) (.ofInt 16 (a + 1)) (.ofBytes 0 b) := by
      simp [zeroHigh, save_of_address (hk.hi _ _), hmem, Memory.put_ofBytes]
    obtain ⟨e', he', hput⟩ := hrun
    rw [hlines, run_append he]
    exact ⟨e', he', Located.word?_of_put hhome hput⟩

/-- The sign is found by a comparison for registers, and by setting all other bits for memory. -/
theorem run_signed {d : WordValue} {dest : Located} (hd : d.IsAt L dest) (c : Cpu) :
    ∃ e, L.run d.signed c = some e ∧ dest.word? e = some (c.a.signExtend 16) ∧
      ∀ p ∉ dest.bytes .word, e.mem p = c.mem p := by
  rw [← Word.ofBytes_signExtend]
  have hule : BitVec.ule 0x80#8 c.a = c.a.msb := by
    generalize c.a = v
    revert v; decide +kernel
  obtain ⟨home, a⟩ := dest
  cases d with
  | pair p =>
    obtain rfl : home = .pair p := hd
    cases hb : c.a.msb <;> cases p <;>
      simp [signed, hule, hb, Located.word?, Home.word?]
  | cell k =>
    obtain ⟨hhome, hk⟩ := hd
    have hor : ∀ v : Byte, v.msb = true → v ||| 127#8 = 255#8 := by decide
    have hmsb : (127#8).msb = false := by decide
    have hrun : ∃ e, L.run (signed (.cell k)) c = some e ∧
        e.mem = c.mem.put (.ofInt 16 a) (.ofInt 16 (a + 1))
          (.ofBytes (if c.a.msb then 0xff#8 else 0#8) c.a) := by
      cases hb : c.a.msb with
      | false =>
        simp [signed, save_of_address (hk.lo _ _), save_of_address (hk.hi _ _), hb, hmsb,
          Memory.put_ofBytes]
      | true =>
        simp [signed, save_of_address (hk.lo _ _), save_of_address (hk.hi _ _), hb, hor c.a hb,
          Memory.put_ofBytes]
    obtain ⟨e, he, hput⟩ := hrun
    exact ⟨e, he, Located.word?_of_put hhome hput⟩

theorem putsWord_signExtend (hv : v.Reads L c b) (d : WordValue) :
    PutsWord L c (signExtend v d) d (b.signExtend 16) := by
  intro dest hd
  obtain ⟨e, he, rfl, hmem⟩ := hv.run_toReg .a
  have hlines : (signExtend v d).lines = (v.toReg .a).lines ++ d.signed := by
    simp [signExtend, Code.lines, ByteValue.toA_eq_toReg]
  rw [hlines, run_append he, ← hmem]
  exact run_signed hd e

end WordValue

end

/-! ### What instructions push and pop -/

def Opcode.widen? : Opcode → Option (Byte → Word)
  | .ub2uword => some (·.setWidth 16)
  | .b2word => some (·.signExtend 16)
  | _ => none

def pushedByte? (L : Layout) (c : Cpu) : List Instr → Option Byte
  | [x] =>
    match x.op with
    | .known .pushByte => x.int?.map fun n => .ofInt 8 n.toInt
    | .known .pushVarByte => Located.byte? ⟨.ofName x.sym, L.address x.sym⟩ c
    | .known .pushMemB | .known .pushMemUB => x.int?.map fun a => c.mem (.ofInt 16 a.toInt)
    | _ => none
  | [i, array] =>
    if i.is .pushByte && array.is .readIndexedVarByte then
      i.int?.map fun n => c.mem (.ofInt 16 (L.address array.sym + n.toInt))
    else none
  | _ => none

def poppedInto? (L : Layout) : List Instr → Option Located
  | [x] =>
    match x.op with
    | .known .popVarWord => some ⟨.ofName x.sym, L.address x.sym⟩
    | .known .popMemWord => x.int?.map fun a => ⟨.mem, a.toInt⟩
    | _ => none
  | [i, array] =>
    if i.is .pushByte && array.is .writeIndexedVarWord then
      i.int?.map fun n => ⟨.var, L.address array.sym + n.toInt * 2⟩
    else none
  | _ => none

/-- A variable pushed as a byte is not a pair of registers, and one popped as a word is not a
single register. -/
def Instr.fitsHome (x : Instr) : Bool :=
  match x.op with
  | .known .pushVarByte => !(Home.ofName x.sym).isPair
  | .known .popVarWord => (Home.ofName x.sym).isPair || !(Home.ofName x.sym).isRegister
  | _ => true

namespace Reading

variable {α β : Type} {r : Reading α} {P Q : Prop}

/-- Unless it meets a defect, reading yields something exactly if `P`. -/
def AcceptsIff (r : Reading α) (P : Prop) : Prop := ∀ o, r.run = .ok o → (o.isSome ↔ P)

theorem AcceptsIff.congr (hr : r.AcceptsIff P) (h : P ↔ Q) : r.AcceptsIff Q :=
  fun o ho => (hr o ho).trans h

theorem acceptsIff_pure (a : α) : (pure a : Reading α).AcceptsIff True := by
  rintro _ ⟨⟩
  simp

theorem acceptsIff_ofOption (o : Option α) : (ofOption o).AcceptsIff o.isSome := by
  rintro _ ⟨⟩
  rfl

theorem AcceptsIff.bind {f : α → Reading β} (hr : r.AcceptsIff P) (hf : ∀ a, (f a).AcceptsIff Q) :
    (r >>= f).AcceptsIff (P ∧ Q) := by
  intro o ho
  rw [OptionT.run_bind] at ho
  cases hrun : r.run with
  | error d =>
    rw [hrun] at ho
    cases ho
  | ok a =>
    have hP := hr a hrun
    rw [hrun] at ho
    cases a with
    | none =>
      cases ho
      simp [← hP]
    | some a => simp [← hP, hf a o ho]

/-- The integer operand is used in a way that always works. -/
theorem acceptsIff_integer (x : Instr) (f : Int64 → α) :
    (do return f (← x.integer) : Reading α).AcceptsIff True := by
  have hx : x.integer.AcceptsIff True := by
    intro o ho
    unfold Instr.integer at ho
    split at ho
    · cases ho
      simp
    · cases ho
  exact (hx.bind fun _ => acceptsIff_pure _).congr (by simp)

end Reading

namespace Assignment

open Reading

variable {L : Layout} {c : Cpu} {x i array : Instr}

/-! ### Sources -/

structure ReadsPushed (L : Layout) (c : Cpu) (xs : List Instr) (r : Reading ByteValue) : Prop where
  accepts : r.AcceptsIff (∀ x ∈ xs, x.fitsHome)
  reads : ∀ v, r.run = .ok (some v) → ∃ b, pushedByte? L c xs = some b ∧ v.Reads L c b

theorem readsPushed_const (hx : x.op = .known .pushByte) : ReadsPushed L c [x] (constByte x) := by
  refine ⟨(acceptsIff_integer x _).congr (by simp [Instr.fitsHome, hx]), fun v hv => ?_⟩
  obtain ⟨n, hn, hv⟩ := Reading.of_bind_eq_some hv
  cases hv
  refine ⟨.ofInt 8 n.toInt, by simp [pushedByte?, hx, int?_of_integer hn], rfl, rfl, ?_⟩
  simp [lowByte, fetch?, setWidth_toBitVec]

theorem readsPushed_var (hx : x.op = .known .pushVarByte) : ReadsPushed L c [x] (varByte x) := by
  refine ⟨(acceptsIff_ofOption _).congr ?_, fun v hv => ?_⟩
  · unfold ByteValue.ofName?
    cases hhome : Home.ofName x.sym <;> simp [Instr.fitsHome, hx, hhome, Home.isPair]
  · have hname := Except.ok.inj hv
    cases hhome : Home.ofName x.sym with
    | reg r =>
      simp only [ByteValue.ofName?, hhome, Option.some.injEq] at hname
      subst hname
      refine ⟨c.reg r, ?_, rfl⟩
      cases r <;> simp [pushedByte?, hx, hhome, Located.byte?, Home.byte?, Cpu.reg]
    | pair p => simp [ByteValue.ofName?, hhome] at hname
    | var | mem =>
      simp only [ByteValue.ofName?, hhome, Option.some.injEq] at hname
      subst hname
      refine ⟨c.mem (.ofInt 16 (L.address x.sym)), ?_, rfl, rfl, rfl⟩
      simp [pushedByte?, hx, hhome, Located.byte?, Home.byte?, Located.low]

theorem readsPushed_mem (hx : x.op = .known .pushMemB ∨ x.op = .known .pushMemUB) :
    ReadsPushed L c [x] (memByte x) := by
  refine ⟨(acceptsIff_integer x _).congr ?_, fun v hv => ?_⟩
  · rcases hx with hx | hx <;> simp [Instr.fitsHome, hx]
  · obtain ⟨a, ha, hv⟩ := Reading.of_bind_eq_some hv
    cases hv
    refine ⟨c.mem (.ofInt 16 a.toInt), ?_, rfl, rfl, rfl⟩
    rcases hx with hx | hx <;> simp [pushedByte?, hx, int?_of_integer ha]

theorem readsPushed_elem (hi : i.op = .known .pushByte)
    (harray : array.op = .known .readIndexedVarByte) :
    ReadsPushed L c [i, array] (elemByte i array) := by
  refine ⟨(acceptsIff_integer i _).congr (by simp [Instr.fitsHome, hi, harray]), fun v hv => ?_⟩
  obtain ⟨n, hn, hv⟩ := Reading.of_bind_eq_some hv
  cases hv
  refine ⟨c.mem (.ofInt 16 (L.address array.sym + n.toInt)), ?_, rfl, rfl, ?_⟩
  · simp [pushedByte?, Instr.is, hi, harray, int?_of_integer hn]
  · simp [fetch?, address?, value_elem]

/-- The code puts what instructions push into a destination, widened. -/
structure StoresWidened (L : Layout) (c : Cpu) (xs : List Instr) (d : WordValue)
    (r : Reading Code) : Prop where
  accepts : r.AcceptsIff (∀ x ∈ xs, x.fitsHome)
  puts : ∀ code, r.run = .ok (some code) → ∃ ys x op g b, xs = ys ++ [x] ∧ x.op = .known op ∧
    op.widen? = some g ∧ pushedByte? L c ys = some b ∧ PutsWord L c code d (g b)

section

variable {xs : List Instr} {r : Reading ByteValue}

theorem ReadsPushed.zeroExtended (hr : ReadsPushed L c xs r) (hx : x.op = .known .ub2uword)
    (d : WordValue) : StoresWidened L c (xs ++ [x]) d (zeroExtended r d) := by
  have hfits : x.fitsHome := by simp [Instr.fitsHome, hx]
  refine ⟨(hr.accepts.bind fun _ => acceptsIff_pure _).congr ?_, fun code hcode => ?_⟩
  · simp [or_imp, forall_and, hfits]
  · obtain ⟨v, hv, hcode⟩ := Reading.of_bind_eq_some hcode
    cases hcode
    obtain ⟨b, hb, hreads⟩ := hr.reads v hv
    exact ⟨xs, x, _, _, b, rfl, hx, rfl, hb, WordValue.putsWord_zeroExtend hreads d⟩

theorem ReadsPushed.signExtended (hr : ReadsPushed L c xs r) (hx : x.op = .known .b2word)
    (d : WordValue) : StoresWidened L c (xs ++ [x]) d (signExtended r d) := by
  have hfits : x.fitsHome := by simp [Instr.fitsHome, hx]
  refine ⟨(hr.accepts.bind fun _ => acceptsIff_pure _).congr ?_, fun code hcode => ?_⟩
  · simp [or_imp, forall_and, hfits]
  · obtain ⟨v, hv, hcode⟩ := Reading.of_bind_eq_some hcode
    cases hcode
    obtain ⟨b, hb, hreads⟩ := hr.reads v hv
    exact ⟨xs, x, _, _, b, rfl, hx, rfl, hb, WordValue.putsWord_signExtend hreads d⟩

end

/-- Instructions by their opcodes, whatever their operands. -/
theorem exists_one {xs : List Instr} {op : Opcode}
    (h : xs.map (·.op) = [op].map .known) : ∃ x, xs = [x] ∧ x.op = .known op := by
  obtain ⟨x, rfl⟩ := List.length_eq_one_iff.mp (by simpa using congrArg List.length h)
  exact ⟨x, rfl, by simpa using h⟩

theorem exists_two {xs : List Instr} {op op' : Opcode}
    (h : xs.map (·.op) = [op, op'].map .known) :
    ∃ x y, xs = [x, y] ∧ x.op = .known op ∧ y.op = .known op' := by
  obtain ⟨x, y, rfl⟩ := List.length_eq_two.mp (by simpa using congrArg List.length h)
  exact ⟨x, y, rfl, by simpa using h⟩

theorem exists_three {xs : List Instr} {op op' op'' : Opcode}
    (h : xs.map (·.op) = [op, op', op''].map .known) :
    ∃ x y z, xs = [x, y, z] ∧ x.op = .known op ∧ y.op = .known op' ∧ z.op = .known op'' := by
  obtain ⟨x, y, z, rfl⟩ := List.length_eq_three.mp (by simpa using congrArg List.length h)
  exact ⟨x, y, z, rfl, by simpa using h⟩

theorem wordSources_widen : ∀ s ∈ wordSources, (∃ op ∈ s.seq, op.widen?.isSome) →
    ∀ xs, xs.map (·.op) = s.seq.map .known → ∀ d, StoresWidened L c xs d (s.store xs d) := by
  simp only [wordSources, List.forall_mem_cons]
  refine ⟨?_, ?_, ?_, ?_, ?_, ?_, ?_, ?_, ?_, ?_, ?_, ?_⟩
  -- Words are not widened.
  · simp [Opcode.widen?]
  · simp [Opcode.widen?]
  · simp [Opcode.widen?]
  · simp [Opcode.widen?]
  -- Bytes without a sign.
  · intro _ xs hxs d
    obtain ⟨x, y, rfl, hx, hy⟩ := exists_two hxs
    exact (readsPushed_const hx).zeroExtended hy d
  · intro _ xs hxs d
    obtain ⟨x, y, rfl, hx, hy⟩ := exists_two hxs
    exact (readsPushed_var hx).zeroExtended hy d
  · intro _ xs hxs d
    obtain ⟨x, y, rfl, hx, hy⟩ := exists_two hxs
    exact (readsPushed_mem (.inr hx)).zeroExtended hy d
  · intro _ xs hxs d
    obtain ⟨i, array, y, rfl, hi, harray, hy⟩ := exists_three hxs
    exact (readsPushed_elem hi harray).zeroExtended hy d
  -- Bytes with a sign.
  · intro _ xs hxs d
    obtain ⟨x, y, rfl, hx, hy⟩ := exists_two hxs
    exact (readsPushed_var hx).signExtended hy d
  · intro _ xs hxs d
    obtain ⟨x, y, rfl, hx, hy⟩ := exists_two hxs
    exact (readsPushed_mem (.inl hx)).signExtended hy d
  · intro _ xs hxs d
    obtain ⟨i, array, y, rfl, hi, harray, hy⟩ := exists_three hxs
    exact (readsPushed_elem hi harray).signExtended hy d
  · simp

/-! ### Destinations -/

structure NamesPopped (L : Layout) (ys : List Instr) (r : Reading WordValue) : Prop where
  accepts : r.AcceptsIff (∀ y ∈ ys, y.fitsHome)
  names : ∀ d, r.run = .ok (some d) → ∃ dest, poppedInto? L ys = some dest ∧ d.IsAt L dest

theorem wordDests_name : ∀ d ∈ wordDests, ∀ ys, ys.map (·.op) = d.seq.map .known →
    NamesPopped L ys (d.place ys) := by
  simp only [wordDests, List.forall_mem_cons]
  refine ⟨?_, ?_, ?_, ?_⟩
  · intro ys hys
    obtain ⟨x, rfl, hx⟩ := exists_one hys
    refine ⟨(acceptsIff_ofOption _).congr ?_, fun d hd => ?_⟩
    · unfold WordValue.ofName?
      cases hhome : Home.ofName x.sym <;>
        simp [Instr.fitsHome, hx, hhome, Home.isPair, Home.isRegister]
    · have hname := Except.ok.inj hd
      refine ⟨⟨.ofName x.sym, L.address x.sym⟩, by simp [poppedInto?, hx], ?_⟩
      cases hhome : Home.ofName x.sym with
      | reg r => simp [WordValue.ofName?, hhome] at hname
      | pair p =>
        simp only [WordValue.ofName?, hhome, Option.some.injEq] at hname
        subst hname
        rfl
      | var | mem =>
        simp only [WordValue.ofName?, hhome, Option.some.injEq] at hname
        subst hname
        exact ⟨rfl, .named L x.sym⟩
  · intro ys hys
    obtain ⟨x, rfl, hx⟩ := exists_one hys
    refine ⟨(acceptsIff_integer x _).congr (by simp [Instr.fitsHome, hx]), fun d hd => ?_⟩
    obtain ⟨a, ha, hd⟩ := Reading.of_bind_eq_some hd
    cases hd
    exact ⟨⟨.mem, a.toInt⟩, by simp [poppedInto?, hx, int?_of_integer ha], rfl, .memory L a⟩
  · intro ys hys
    obtain ⟨i, array, rfl, hi, harray⟩ := exists_two hys
    refine ⟨(acceptsIff_integer i _).congr (by simp [Instr.fitsHome, hi, harray]), fun d hd => ?_⟩
    obtain ⟨n, hn, hd⟩ := Reading.of_bind_eq_some hd
    cases hd
    refine ⟨⟨.var, L.address array.sym + n.toInt * 2⟩, ?_, rfl, .element L array.sym n⟩
    simp [poppedInto?, Instr.is, hi, harray, int?_of_integer hn]
  · simp

/-! ### Rules -/

/-- A rule that widens a byte matches in one way only, and it is the source that widens. -/
theorem of_widening {d : WordDest} (hd : d ∈ wordDests) {s : WordSource} (hs : s ∈ wordSources)
    (h : ∃ op ∈ (wordRule d s).seq, op.widen?.isSome) {w : List Instr}
    (happlies : (wordRule d s).Applies w) :
    (∃ op ∈ s.seq, op.widen?.isSome) ∧
      ((w.take (wordRule d s).size).take s.seq.length).map (·.op) = s.seq.map .known ∧
      ((w.take (wordRule d s).size).drop s.seq.length).map (·.op) = d.seq.map .known := by
  have hdests : ∀ d ∈ wordDests, ∀ op ∈ d.seq, op.widen?.isNone := by decide
  have halts : ∀ s ∈ wordSources, (∃ op ∈ s.seq, op.widen?.isSome) → s.alt = [] := by decide
  have hwiden : ∃ op ∈ s.seq, op.widen?.isSome := by
    obtain ⟨op, hop, hsome⟩ := h
    rcases List.mem_append.mp hop with hop | hop
    · exact ⟨op, hop, hsome⟩
    · simp [Option.isNone_iff_eq_none.mp (hdests d hd op hop)] at hsome
  have hops : (w.take (wordRule d s).size).map (·.op) = (s.seq ++ d.seq).map .known := by
    rcases happlies with hseq | ⟨hne, -⟩
    · rw [List.prefix_iff_eq_take, List.length_map] at hseq
      rw [List.map_take]
      exact hseq.symm
    · exact absurd (by simp [wordRule, alternative, halts s hs hwiden]) hne
  refine ⟨hwiden, ?_, ?_⟩
  · rw [List.map_take, hops, List.map_append, List.take_left' (by simp)]
  · rw [List.map_drop, hops, List.map_append, List.drop_left' (by simp)]

end Assignment

open Assignment in
/-- A rule that widens a byte. Whatever it offers, in a processor of any state the code leaves in
the destination the byte that was to be pushed, from a register, from memory or a constant, with
zeros or copies of its sign in front as the instruction after it says, and no other memory changes.
For complete instructions that match it offers something unless the byte is in a pair of
registers or the word in a single one. -/
theorem wordRules_widen {r : Rule} (hr : r ∈ wordRules) (hwiden : ∃ op ∈ r.seq, op.widen?.isSome)
    (w : List Instr) (pool : FloatPool) (L : Layout) (c : Cpu) :
    (∀ f ∈ r.offer? w pool, ∃ xs x ys op g b dest e, w.take r.size = xs ++ x :: ys ∧
      x.op = .known op ∧ op.widen? = some g ∧
      pushedByte? L c xs = some b ∧ poppedInto? L ys = some dest ∧
      L.run f.code.lines c = some e ∧ dest.word? e = some (g b) ∧
      ∀ p ∉ dest.bytes .word, e.mem p = c.mem p) ∧
    (r.Applies w → (∀ x ∈ w, x.isComplete) →
      ((r.offer? w pool).isSome ↔ ∀ x ∈ w.take r.size, x.fitsHome)) := by
  obtain ⟨d, hd, hmap⟩ := List.mem_flatMap.mp hr
  obtain ⟨s, hs, rfl⟩ := List.mem_map.mp hmap
  constructor
  · intro f hoffer
    obtain ⟨happlies, hoffer⟩ := Option.ite_none_right_eq_some.mp hoffer
    obtain ⟨_, code, ⟨⟩, hcode, rfl⟩ := Lowering.of_offer?_eq_some hoffer
    obtain ⟨place, hplace, hstore⟩ := Reading.of_bind_eq_some hcode
    obtain ⟨hsource, hxs, hys⟩ := of_widening hd hs hwiden happlies
    obtain ⟨xs, x, op, g, b, hsplit, hx, hg, hb, hputs⟩ :=
      (wordSources_widen s hs hsource _ hxs place).puts code hstore
    obtain ⟨dest, hdest, hat⟩ := (wordDests_name d hd _ hys).names place hplace
    obtain ⟨e, he, hword, hmem⟩ := hputs dest hat
    refine ⟨xs, x, _, op, g, b, dest, e, ?_, hx, hg, hb, hdest, he, hword, hmem⟩
    rw [← List.singleton_append, ← List.append_assoc, ← hsplit, List.take_append_drop]
  · intro happlies hcomplete
    obtain ⟨hsource, hxs, hys⟩ := of_widening hd hs hwiden happlies
    have hwell := rules_isWellFormed _ (List.mem_append_left _ (List.mem_append_right _ hr))
    obtain ⟨_, ⟨⟩, hanswers⟩ := wordRule_isSound hd hs
    obtain ⟨o, ho⟩ := hanswers _ (happlies.matchedEither hwell hcomplete) pool
    have haccepts := (wordDests_name (L := L) d hd _ hys).accepts.bind fun place =>
      (wordSources_widen (L := L) (c := c) s hs hsource _ hxs place).accepts
    have hoffer : ((wordRule d s).offer? w pool).isSome = o.isSome := by
      rw [Rule.offer?, if_pos happlies]
      exact (congrArg Option.isSome (Lowering.offer?_of_eq_ok ho)).trans Option.isSome_map
    rw [hoffer, haccepts o ho, and_comm, ← List.forall_mem_append, List.take_append_drop]

namespace Spreading

def layout : Layout := ⟨fun _ => 0x2000, fun _ c => c⟩

def cpu : Cpu := ⟨0, 0x80, 0, 0xff, true, false, false, false, fun _ => 5⟩

/-- A signed byte in X is widened into A and X. -/
def window : List Instr :=
  [{ op := .known .pushVarByte, sym := "X" }, { op := .known .b2word },
    { op := .known .popVarWord, sym := "AX" }]

end Spreading

open Spreading Assignment in
theorem wordRules_widen_spreading : ∃ r f, r ∈ wordRules ∧ (∃ op ∈ r.seq, op.widen?.isSome) ∧
    r.offer? window .empty = some f ∧
    (∃ xs x ys op g b dest e, window.take r.size = xs ++ x :: ys ∧ x.op = .known op ∧
      op.widen? = some g ∧ pushedByte? layout cpu xs = some b ∧
      poppedInto? layout ys = some dest ∧ layout.run f.code.lines cpu = some e ∧
      dest.word? e = some (g b) ∧ ∀ p ∉ dest.bytes .word, e.mem p = cpu.mem p) ∧
    r.Applies window ∧ ∀ x ∈ window.take r.size, x.fitsHome := by
  have hr : wordRule wordDests[0] wordSources[8] ∈ wordRules :=
    List.mem_flatMap.mpr ⟨_, List.getElem_mem _, List.mem_map_of_mem (List.getElem_mem _)⟩
  have hwiden : ∃ op ∈ (wordRule wordDests[0] wordSources[8]).seq, op.widen?.isSome := by decide
  have hoffer : (wordRule wordDests[0] wordSources[8]).offer? window .empty =
      some ⟨"word var = byte var",
        [[txa], [ldx (.digit 0), cmp (.imm 0x80), bcc next, dex, here]], 3, false⟩ := by decide
  have happlies : (wordRule wordDests[0] wordSources[8]).Applies window := by decide
  obtain ⟨hruns, haccepts⟩ := wordRules_widen hr hwiden window .empty layout cpu
  exact ⟨_, _, hr, hwiden, hoffer, hruns _ hoffer, happlies,
    (haccepts happlies (by decide)).mp (by rw [hoffer]; rfl)⟩

end Stack6502
