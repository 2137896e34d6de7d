import Mathlib.Data.List.Chain
import Stack6502.Proofs.JumpSelection
import Stack6502.Proofs.StackSimulation

/-!
# Assignments of bytes agree with the evaluation stack

Each rule for bytes joins a way to read a byte to a way to write it. A source and its instructions
stand for the same byte, and so do a destination and its instructions for the same place; the rules
follow from the two.
-/
namespace Stack6502

open Asm Layout

/-! ### Instructions on their own -/

section Standalone

variable {L : Layout} {x : Instr} {xs ys : List Instr} {σ τ σ' : Operands}

/-- The instructions have code of their own, which does what the operand stack says. -/
def AreSimulated (L : Layout) (xs : List Instr) (σ σ' : Operands) : Prop :=
  ∃ ls, (∀ scope s, standaloneLines scope xs s = some ls) ∧ Simulates L ls σ σ'

theorem AreSimulated.one (hx : x.IsSimulated L σ σ') : AreSimulated L [x] σ σ' := by
  obtain ⟨code, hcode, hsim⟩ := hx
  exact ⟨code.lines, fun scope s => by simp [standaloneLines, hcode], hsim⟩

theorem standaloneLines_append {scope : Option Text} {s : Session} {ls ms : List Line}
    (hxs : standaloneLines scope xs s = some ls)
    (hys : ∀ s, standaloneLines scope ys s = some ms) :
    standaloneLines scope (xs ++ ys) s = some (ls ++ ms) := by
  induction xs generalizing s ls with
  | nil =>
    cases hxs
    exact hys s
  | cons x xs ih =>
    obtain ⟨r, hr, hmap⟩ := Option.bind_eq_some_iff.mp hxs
    obtain ⟨rest, hrest, rfl⟩ := Option.map_eq_some_iff.mp hmap
    simp [standaloneLines, hr, ih hrest]

theorem AreSimulated.append (hxs : AreSimulated L xs σ τ) (hys : AreSimulated L ys τ σ') :
    AreSimulated L (xs ++ ys) σ σ' := by
  obtain ⟨ls, hls, hsim⟩ := hxs
  obtain ⟨ms, hms, hsim'⟩ := hys
  refine ⟨ls ++ ms, fun scope s => standaloneLines_append (hls scope s) (hms scope), fun c hc => ?_⟩
  obtain ⟨d, hd, hrep⟩ := hsim c hc
  obtain ⟨e, he, hrep'⟩ := hsim' d hrep
  exact ⟨e, by rw [run_append hd, he], hrep'⟩

theorem execAll_append (xs ys : List Instr) (σ : Operands) :
    execAll L (xs ++ ys) σ = (execAll L xs σ).bind (execAll L ys) := by
  induction xs generalizing σ with
  | nil => rfl
  | cons x xs ih =>
    simp only [List.cons_append, execAll, Option.bind_assoc]
    exact congrArg _ (funext ih)

theorem RunsFree.of_append (h : RunsFree L (xs ++ ys) σ) :
    RunsFree L xs σ ∧ ∀ τ, execAll L xs σ = some τ → RunsFree L ys τ := by
  induction xs generalizing σ with
  | nil => exact ⟨trivial, fun τ hτ => by cases hτ; exact h⟩
  | cons x xs ih =>
    refine ⟨⟨h.1, fun τ hτ => (ih (h.2 τ hτ)).1⟩, fun τ hτ => ?_⟩
    obtain ⟨υ, hυ, hrest⟩ := Option.bind_eq_some_iff.mp hτ
    exact (ih (h.2 υ hυ)).2 τ hrest

end Standalone

/-- The slots in use hold bytes, whatever they are. -/
theorem exists_holds (m : Memory) (i n : Nat) : ∃ st, st.length = n ∧ Holds m i st := by
  induction n generalizing i with
  | zero => exact ⟨[], rfl, trivial⟩
  | succ n ih =>
    obtain ⟨st, hlen, hst⟩ := ih (i + 1)
    exact ⟨.byte (m (lowSlot i)) :: st, by rw [List.length_cons, hlen], rfl, hst⟩

theorem exists_represents (c : Cpu) : ∃ st, Represents c ⟨c.mem, st⟩ := by
  have hx := c.x.isLt
  obtain ⟨st, hlen, hst⟩ := exists_holds c.mem (c.x.toNat + 1) (255 - c.x.toNat)
  exact ⟨st, by simp only [hlen]; omega, hst, fun _ _ => rfl⟩

/-! ### Reading a byte -/

/-- With memory `m` the instructions push the byte `b`, as their own code does. -/
structure Pushes (L : Layout) (m : Memory) (xs : List Instr) (b : Byte) : Prop where
  exec : ∀ st, execAll L xs ⟨m, st⟩ = some ⟨m, .byte b :: st⟩
  simulated : ∀ st, st.length < 255 → AreSimulated L xs ⟨m, st⟩ ⟨m, .byte b :: st⟩

section Pushes

variable {L : Layout} {m : Memory} {x array : Instr} {xs : List Instr} {b i : Byte} {v : Int64}

theorem Pushes.of_exec {op : Opcode} (hx : x.IsWhole op)
    (hname : (Home.ofName x.sym).isRegister = false)
    (hsig : op.signature? = some ⟨[], [.byte]⟩) (hfree : ∀ st s, x.site? L st = some s → s.IsFree)
    (hexec : ∀ st, x.exec L ⟨m, st⟩ = some ⟨m, .byte b :: st⟩) : Pushes L m [x] b where
  exec st := by simp [execAll, hexec]
  simulated st hst :=
    .one (x.isSimulated hx.2 hname hx.1 hsig rfl (hfree _) (hexec st) hst)

theorem Pushes.const (hx : x.IsWhole .pushByte) (hname : (Home.ofName x.sym).isRegister = false)
    (hv : x.int? = some v) : Pushes L m [x] (.ofInt 8 v.toInt) := by
  refine .of_exec hx hname rfl (fun st s hs => ?_) fun st => ?_
  · simp [Instr.site?, hx.1] at hs
  · simp [Instr.exec, hx.1, hv, Operands.push]

theorem Pushes.var (hx : x.IsWhole .pushVarByte) (hname : (Home.ofName x.sym).isRegister = false)
    (hfree : Site.IsFree ⟨.byte, L.address x.sym⟩) :
    Pushes L m [x] (m (.ofInt 16 (L.address x.sym))) := by
  have hsite (st : List Entry) : x.site? L st = some ⟨.byte, L.address x.sym⟩ := by
    simp [Instr.site?, hx.1]
  refine .of_exec hx hname rfl (fun st s hs => ?_) fun st => ?_
  · rw [hsite] at hs
    cases hs
    exact hfree
  · simp [Instr.exec, hx.1, hsite, Operands.load, Operands.push, Memory.get]

theorem Pushes.mem {op : Opcode} (hop : op = .pushMemB ∨ op = .pushMemUB) (hx : x.IsWhole op)
    (hname : (Home.ofName x.sym).isRegister = false) (hv : x.int? = some v)
    (hfree : Site.IsFree ⟨.byte, v.toInt⟩) : Pushes L m [x] (m (.ofInt 16 v.toInt)) := by
  have hsite (st : List Entry) : x.site? L st = some ⟨.byte, v.toInt⟩ := by
    rcases hop with rfl | rfl <;> simp [Instr.site?, hx.1, hv]
  refine .of_exec hx hname (by rcases hop with rfl | rfl <;> rfl) (fun st s hs => ?_) fun st => ?_
  · rw [hsite] at hs
    cases hs
    exact hfree
  · rcases hop with rfl | rfl <;>
      simp [Instr.exec, hx.1, hsite, Operands.load, Operands.push, Memory.get]

/-- The index is replaced by the element found there. -/
theorem Pushes.element (hxs : Pushes L m xs i) (harray : array.IsWhole .readIndexedVarByte)
    (hfree : Site.IsFree ⟨.byte, L.address array.sym + i.toNat⟩) :
    Pushes L m (xs ++ [array]) (m (.ofInt 16 (L.address array.sym + i.toNat))) where
  exec st := by
    simp [execAll_append, hxs.exec, execAll, Instr.exec, Instr.site?, harray.1, Operands.read,
      Memory.get]
  simulated st hst := by
    refine (hxs.simulated st hst).append (.one ?_)
    exact .of_fallback harray.1 rfl (fun _ _ => rfl) (Simulates.readByte hfree rfl)

end Pushes

/-- Loading the byte into A gives `b` and changes neither X nor memory. -/
def ByteValue.Loads (L : Layout) (m : Memory) (v : ByteValue) (b : Byte) : Prop :=
  ∃ place setup usesY, v = .loc place setup usesY ∧ ∀ c : Cpu, c.mem = m →
    ∃ d, L.run (setup ++ [lda place]) c = some d ∧ d.a = b ∧ d.x = c.x ∧ d.mem = m

section Loads

variable {L : Layout} {m : Memory} {x array : Instr} {o : Operand} {p q : Word}

theorem ByteValue.Loads.const (v : Int64) :
    Loads L m (.loc (lowByte v) [] false) (.ofInt 8 v.toInt) := by
  refine ⟨_, _, _, rfl, fun c hc => ?_⟩
  simp [lowByte, setWidth_toBitVec, hc]

theorem ByteValue.Loads.direct (p : Place) :
    Loads L m (Assignment.atPlace p) (m (.ofInt 16 (L.value p))) := by
  refine ⟨_, _, _, rfl, fun c hc => ?_⟩
  exact ⟨_, rfl, by simp [hc], rfl, hc⟩

/-- The index is read from memory. -/
theorem ByteValue.Loads.byY (array : Instr) (i : Place) :
    Loads L m (Assignment.byY array [ldy (.direct i)])
      (m (.ofInt 16 (L.address array.sym + (m (.ofInt 16 (L.value i))).toNat))) := by
  refine ⟨_, _, _, rfl, fun c hc => ?_⟩
  simp [hc, value]

end Loads

/-! ### Writing a byte -/

def Pops (L : Layout) (m : Memory) (ys : List Instr) (b : Byte) (a : Int) : Prop :=
  ∀ st, st.length < 254 → AreSimulated L ys ⟨m, .byte b :: st⟩ ⟨Memory.set m a (.byte b), st⟩

/-- The code puts `b` into the address `a` and changes neither X nor the rest of memory. -/
def Puts (L : Layout) (m : Memory) (code : Code) (b : Byte) (a : Int) : Prop :=
  ∀ c : Cpu, c.mem = m →
    ∃ d, L.run code.lines c = some d ∧ d.x = c.x ∧ d.mem = Memory.set m a (.byte b)

section Writes

variable {L : Layout} {m : Memory} {x array : Instr} {xs : List Instr} {b i : Byte} {v : ByteValue}

theorem Pops.element (hxs : Pushes L m xs i) (harray : array.IsWhole .writeIndexedVarByte)
    (hfree : Site.IsFree ⟨.byte, L.address array.sym + i.toNat⟩) :
    Pops L m (xs ++ [array]) b (L.address array.sym + i.toNat) := by
  intro st hst
  refine (hxs.simulated (.byte b :: st) (Nat.succ_lt_succ hst)).append (.one ?_)
  exact .of_fallback harray.1 rfl (fun _ _ => rfl) (Simulates.writeByte hfree rfl)

theorem ByteValue.Loads.puts (hv : v.Loads L m b) (p : Place) :
    Puts L m (v.toPlace (.direct p)) b (L.value p) := by
  intro c hc
  obtain ⟨place, setup, usesY, rfl, hload⟩ := hv
  obtain ⟨d, hd, rfl, hx, hm⟩ := hload c hc
  have hlines : Code.lines (toPlace (.direct p) (.loc place setup usesY)) =
      (setup ++ [lda place]) ++ [sta (.direct p)] := by
    simp [toPlace, Code.lines]
  rw [hlines, run_append hd]
  exact ⟨_, rfl, hx, by simp [Memory.set, hm]⟩

theorem ByteValue.Loads.puts_indexed (hv : v.Loads L m b) (array : Text) (p : Place) {home : Home}
    {code : Code} (hhome : home = .var ∨ home = .mem)
    (hcode : v.toIndexed array (.direct p) home = some code) :
    Puts L m code b (L.address array + (m (.ofInt 16 (L.value p))).toNat) := by
  intro c hc
  obtain ⟨place, setup, usesY, rfl, hload⟩ := hv
  obtain ⟨d, hd, rfl, hx, hm⟩ := hload c hc
  have hlines : code.lines =
      (setup ++ [lda place]) ++ [ldy (.direct p), sta (.byY (.name array))] := by
    rcases hhome with rfl | rfl
    all_goals
      cases hcode
      simp [toA, Code.lines]
  rw [hlines, run_append hd]
  simp [hm, hx, Memory.set, value]

end Writes

/-! ### The rules -/

/-- A constant that is the index of an element, as far as it is one, is in a byte. -/
def IndexInRange (i array : Instr) : Prop :=
  i.op = .known .pushByte →
    array.op = .known .readIndexedVarByte ∨ array.op = .known .writeIndexedVarByte →
    ∀ v ∈ i.int?, 0 ≤ v.toInt ∧ v.toInt ≤ 255

instance (i array : Instr) : Decidable (IndexInRange i array) :=
  letI : Decidable (∀ v ∈ i.int?, 0 ≤ v.toInt ∧ v.toInt ≤ 255) := Option.decidableForallMem _
  inferInstanceAs (Decidable (_ → _ → ∀ v ∈ i.int?, 0 ≤ v.toInt ∧ v.toInt ≤ 255))

namespace Assignment

variable {L : Layout} {m : Memory} {b : Byte}

theorem value_elem (array : Text) (i : Int64) :
    L.value (.elem array i 1) = L.address array + i.toInt := by
  rw [L.value_elem_eq, Int64.mul_one]

/-- Operands that name no registers, constant indices in a byte, and nothing that is read or written
on the evaluation stack. -/
structure IsProper (L : Layout) (xs : List Instr) (σ : Operands) : Prop where
  names : ∀ x ∈ xs, (Home.ofName x.sym).isRegister = false
  indices : xs.IsChain IndexInRange
  free : RunsFree L xs σ

namespace IsProper

variable {i array : Instr} {xs ys : List Instr} {σ : Operands} {st : List Entry} {n : Int64}
  {op : Opcode}

theorem of_append (h : IsProper L (xs ++ ys) σ) :
    IsProper L xs σ ∧ ∀ τ, execAll L xs σ = some τ → IsProper L ys τ := by
  obtain ⟨hxs, hys⟩ := List.forall_mem_append.mp h.names
  obtain ⟨hixs, hiys, -⟩ := List.isChain_append.mp h.indices
  exact ⟨⟨hxs, hixs, h.free.of_append.1⟩, fun τ hτ => ⟨hys, hiys, h.free.of_append.2 τ hτ⟩⟩

theorem pushes_const (h : IsProper L (i :: xs) σ) (hi : i.IsWhole .pushByte)
    (hn : i.int? = some n) : Pushes L m [i] (.ofInt 8 n.toInt) :=
  .const hi (h.names i List.mem_cons_self) hn

theorem pushes_var (h : IsProper L (i :: xs) σ) (hi : i.IsWhole .pushVarByte) :
    Pushes L m [i] (m (.ofInt 16 (L.value (.name i.sym)))) :=
  .var hi (h.names i List.mem_cons_self) (h.free.1 _ (by simp [Instr.site?, hi.1]))

theorem pushes_mem (h : IsProper L (i :: xs) σ) (hop : op = .pushMemB ∨ op = .pushMemUB)
    (hi : i.IsWhole op) (hn : i.int? = some n) :
    Pushes L m [i] (m (.ofInt 16 (L.value (.address n)))) := by
  refine .mem hop hi (h.names i List.mem_cons_self) hn (h.free.1 _ ?_)
  rcases hop with rfl | rfl <;> simp [Instr.site?, hi.1, hn]

theorem toNat_index (h : IsProper L [i, array] σ) (hi : i.IsWhole .pushByte)
    (harray : array.op = .known .readIndexedVarByte ∨ array.op = .known .writeIndexedVarByte)
    (hn : i.int? = some n) : ((BitVec.ofInt 8 n.toInt).toNat : Int) = n.toInt := by
  have hrange := (List.isChain_cons_cons.mp h.indices).1 hi.1 harray n hn
  rw [BitVec.toNat_ofInt]
  omega

theorem isFree_element (h : IsProper L [i, array] ⟨m, st⟩) (hi : Pushes L m [i] b)
    (harray : array.op = .known .readIndexedVarByte ∨ array.op = .known .writeIndexedVarByte) :
    Site.IsFree ⟨.byte, L.address array.sym + b.toNat⟩ := by
  have hfree : RunsFree L ([i] ++ [array]) ⟨m, st⟩ := h.free
  refine (hfree.of_append.2 _ (hi.exec st)).1 _ ?_
  rcases harray with hop | hop <;> simp [Instr.site?, hop]

theorem reads_element (h : IsProper L [i, array] ⟨m, st⟩) (hi : Pushes L m [i] b)
    (harray : array.IsWhole .readIndexedVarByte) :
    Pushes L m [i, array] (m (.ofInt 16 (L.address array.sym + b.toNat))) :=
  hi.element harray (h.isFree_element hi (.inl harray.1))

theorem writes_element {v : Byte} (h : IsProper L [i, array] ⟨m, st⟩) (hi : Pushes L m [i] b)
    (harray : array.IsWhole .writeIndexedVarByte) :
    Pops L m [i, array] v (L.address array.sym + b.toNat) :=
  .element hi harray (h.isFree_element hi (.inr harray.1))

end IsProper

theorem int?_of_integer {x : Instr} {v : Int64} (h : x.integer.run = .ok (some v)) :
    x.int? = some v := by
  unfold Instr.integer at h
  split at h
  · cases h
    assumption
  · cases h

/-- A source reads the byte that its instructions push. -/
theorem byteSources_read : ∀ s ∈ byteSources, ∀ xs, MatchedEither s.seq s.alt xs →
    IsProper L xs ⟨m, []⟩ → ∀ v, (s.value xs).run = .ok (some v) →
    ∃ b, Pushes L m xs b ∧ v.Loads L m b := by
  simp only [byteSources, List.forall_mem_cons, MatchedEither.plain]
  refine ⟨?_, ?_, ?_, ?_, ?_, ?_, ?_⟩
  · intro xs hmatch hproper v hv
    obtain ⟨x, rfl, hx⟩ := hmatch.one
    obtain ⟨n, hn, hv⟩ := Reading.of_bind_eq_some hv
    cases hv
    exact ⟨_, hproper.pushes_const hx (int?_of_integer hn), .const n⟩
  · intro xs hmatch hproper v hv
    obtain ⟨x, rfl, hx⟩ := hmatch.one
    have hname := Home.ofName_eq_var (hproper.names x List.mem_cons_self)
    simp only [varByte, ByteValue.ofName?, hname] at hv
    cases hv
    exact ⟨_, hproper.pushes_var hx, .direct (.name x.sym)⟩
  · rintro xs (hmatch | ⟨-, hmatch⟩) hproper v hv
    all_goals
      obtain ⟨x, rfl, hx⟩ := hmatch.one
      obtain ⟨n, hn, hv⟩ := Reading.of_bind_eq_some hv
      cases hv
      exact ⟨_, hproper.pushes_mem (by simp) hx (int?_of_integer hn), .direct (.address n)⟩
  · intro xs hmatch hproper v hv
    obtain ⟨i, array, rfl, hi, harray⟩ := hmatch.two
    obtain ⟨n, hn, hv⟩ := Reading.of_bind_eq_some hv
    cases hv
    have hn := int?_of_integer hn
    refine ⟨_, hproper.reads_element (hproper.pushes_const hi hn) harray, ?_⟩
    rw [hproper.toNat_index hi (.inl harray.1) hn, ← value_elem]
    exact .direct _
  · intro xs hmatch hproper v hv
    obtain ⟨i, array, rfl, hi, harray⟩ := hmatch.two
    have hname := Home.ofName_eq_var (hproper.names i List.mem_cons_self)
    simp only [hname] at hv
    cases hv
    exact ⟨_, hproper.reads_element (hproper.pushes_var hi) harray, .byY array (.name i.sym)⟩
  · rintro xs (hmatch | ⟨-, hmatch⟩) hproper v hv
    all_goals
      obtain ⟨i, array, rfl, hi, harray⟩ := hmatch.two
      obtain ⟨n, hn, hv⟩ := Reading.of_bind_eq_some hv
      cases hv
      have hpush := hproper.pushes_mem (m := m) (by simp) hi (int?_of_integer hn)
      exact ⟨_, hproper.reads_element hpush harray, .byY array (.address n)⟩
  · simp

/-- A destination writes the byte where its instructions pop it. -/
theorem byteDests_write : ∀ d ∈ byteDests, ∀ ys, MatchedEither d.seq d.alt ys →
    IsProper L ys ⟨m, [.byte b]⟩ → ∀ v code, v.Loads L m b →
    (d.store v ys).run = .ok (some code) → ∃ a, Pops L m ys b a ∧ Puts L m code b a := by
  simp only [byteDests, List.forall_mem_cons, MatchedEither.plain]
  refine ⟨?_, ?_, ?_, ?_, ?_, ?_⟩
  · intro ys hmatch hproper v code hv hcode
    obtain ⟨x, rfl, hx⟩ := hmatch.one
    have hname := hproper.names x List.mem_cons_self
    simp only [Home.ofName_eq_var hname] at hcode
    cases hcode
    have hfree : Site.IsFree ⟨.byte, L.address x.sym⟩ :=
      hproper.free.1 _ (by simp [Instr.site?, hx.1])
    refine ⟨_, fun st _ => .one ?_, hv.puts (.name x.sym)⟩
    exact .of_variable hx.2 hname hx.1 rfl rfl rfl (.storeByte (.named L x.sym) hfree rfl)
  · intro ys hmatch hproper v code hv hcode
    obtain ⟨x, rfl, hx⟩ := hmatch.one
    obtain ⟨n, hn, hcode⟩ := Reading.of_bind_eq_some hcode
    cases hcode
    have hn := int?_of_integer hn
    have hfree : Site.IsFree ⟨.byte, n.toInt⟩ :=
      hproper.free.1 _ (by simp [Instr.site?, hx.1, hn])
    refine ⟨_, fun st _ => .one ?_, hv.puts (.address n)⟩
    exact .of_memory hx.1 hn rfl rfl (.storeByte (.memory L n) hfree rfl)
  · intro ys hmatch hproper v code hv hcode
    obtain ⟨i, array, rfl, hi, harray⟩ := hmatch.two
    obtain ⟨n, hn, hcode⟩ := Reading.of_bind_eq_some hcode
    cases hcode
    have hn := int?_of_integer hn
    refine ⟨_, hproper.writes_element (hproper.pushes_const hi hn) harray, ?_⟩
    rw [hproper.toNat_index hi (.inr harray.1) hn, ← value_elem]
    exact hv.puts _
  · intro ys hmatch hproper v code hv hcode
    obtain ⟨i, array, rfl, hi, harray⟩ := hmatch.two
    have hname := Home.ofName_eq_var (hproper.names i List.mem_cons_self)
    have hindexed := Except.ok.inj hcode
    exact ⟨_, hproper.writes_element (hproper.pushes_var hi) harray,
      hv.puts_indexed array.sym (.name i.sym) (.inl hname) hindexed⟩
  · rintro ys (hmatch | ⟨-, hmatch⟩) hproper v code hv hcode
    all_goals
      obtain ⟨i, array, rfl, hi, harray⟩ := hmatch.two
      obtain ⟨n, hn, hcode⟩ := Reading.of_bind_eq_some hcode
      have hindexed := Except.ok.inj hcode
      have hpush := hproper.pushes_mem (m := m) (by simp) hi (int?_of_integer hn)
      exact ⟨_, hproper.writes_element hpush harray,
        hv.puts_indexed array.sym (.address n) (.inr rfl) hindexed⟩
  · simp

def byteRules : List Rule := byteDests.flatMap fun d => byteSources.map (byteRule d)

theorem of_mem_byteRules {r : Rule} (h : r ∈ byteRules) :
    r.isWellFormed ∧ ∃ d ∈ byteDests, ∃ s ∈ byteSources, r = byteRule d s := by
  have hwell : ∀ r ∈ byteRules, r.isWellFormed := by decide
  refine ⟨hwell r h, ?_⟩
  obtain ⟨d, hd, hmap⟩ := List.mem_flatMap.mp h
  obtain ⟨s, hs, rfl⟩ := List.mem_map.mp hmap
  exact ⟨d, hd, s, hs, rfl⟩

/-- What a rule offers puts the byte where the instructions pop it, with the byte they push. -/
theorem exists_byte_of_offer {r : Rule} (hr : r ∈ byteRules) {w : List Instr} {pool : FloatPool}
    {f : Fragment} (hoffer : r.offer? w pool = some f) (hw : ∀ x ∈ w, x.isComplete)
    (hproper : IsProper L (w.take r.size) ⟨m, []⟩) :
    ∃ xs ys b a, w.take r.size = xs ++ ys ∧ Pushes L m xs b ∧ Pops L m ys b a ∧
      Puts L m f.code b a := by
  obtain ⟨hwell, d, hd, s, hs, rfl⟩ := of_mem_byteRules hr
  have hlen : ∀ s ∈ byteSources, s.alt = [] ∨ s.alt.length = s.seq.length := by decide
  obtain ⟨happlies, hoffer⟩ := Option.ite_none_right_eq_some.mp hoffer
  obtain ⟨_, code, ⟨⟩, hcode, rfl⟩ := Lowering.of_offer?_eq_some hoffer
  obtain ⟨v, hv, hstore⟩ := Reading.of_bind_eq_some hcode
  obtain ⟨hsource, hdest⟩ := MatchedEither.split (hlen s hs) (happlies.matchedEither hwell hw)
  rw [← List.take_append_drop s.seq.length (w.take _)] at hproper
  obtain ⟨hfirst, hrest⟩ := hproper.of_append
  obtain ⟨b, hpush, hload⟩ := byteSources_read s hs _ hsource hfirst v hv
  obtain ⟨a, hpop, hput⟩ :=
    byteDests_write d hd _ hdest (hrest _ (hpush.exec [])) v code hload hstore
  exact ⟨_, _, b, a, (List.take_append_drop ..).symm, hpush, hpop, hput⟩

end Assignment

open Assignment in
/-- On a window of complete instructions that name no registers, with constant indices in a byte,
all that they read and write off the evaluation stack and room for two more entries on it, the code
of a rule for bytes and the code of the instructions on their own leave the same X and the same
memory off the evaluation stack. -/
theorem byteRules_agree (L : Layout) (scope : Option Text) (s : Session) {r : Rule}
    (hr : r ∈ byteRules) {w : List Instr} {pool : FloatPool} {f : Fragment}
    (hoffer : r.offer? w pool = some f) (hw : ∀ x ∈ w, x.isComplete)
    (hnames : ∀ x ∈ w.take r.size, (Home.ofName x.sym).isRegister = false)
    (hindices : (w.take r.size).IsChain IndexInRange) {c : Cpu}
    (hfree : RunsFree L (w.take r.size) ⟨c.mem, []⟩) (hroom : 2 ≤ c.x.toNat) :
    ∃ ls d e, standaloneLines scope (w.take r.size) s = some ls ∧
      L.run f.code.lines c = some d ∧ L.run ls c = some e ∧
      d.x = e.x ∧ ∀ p, OffStack p → d.mem p = e.mem p := by
  obtain ⟨xs, ys, b, a, hwindow, hpush, hpop, hput⟩ :=
    exists_byte_of_offer hr hoffer hw ⟨hnames, hindices, hfree⟩
  obtain ⟨st, hst⟩ := exists_represents c
  have hdepth := hst.depth
  have hlen : st.length < 254 := by
    simp only at hdepth
    omega
  obtain ⟨ls, hls, hsim⟩ := (hpush.simulated st (by omega)).append (hpop st hlen)
  obtain ⟨d, hd, hx, hmem⟩ := hput c rfl
  obtain ⟨e, he, hrep⟩ := hsim c hst
  refine ⟨ls, d, e, hwindow ▸ hls scope s, hd, he, ?_, fun p hp => ?_⟩
  · have hdepth' := hrep.depth
    rw [hx]
    apply BitVec.eq_of_toNat_eq
    simp only at hdepth hdepth'
    omega
  · rw [hmem, hrep.mem p hp]

namespace Moving

def layout : Layout := ⟨fun sym => if sym = "a" then 0x2000 else 0x10, fun _ c => c⟩

/-- The element at a variable index is copied to element 7. -/
def window : List Instr :=
  [{ op := .known .pushVarByte, sym := "i" }, { op := .known .readIndexedVarByte, sym := "a" },
    { op := .known .pushByte, arg := some (.int 7) },
    { op := .known .writeIndexedVarByte, sym := "a" }]

/-- Two entries on the stack, and 5 in every byte of memory. -/
def cpu : Cpu := ⟨0, 253, 0, 0xff, false, false, false, false, fun _ => 5⟩

def code : Code :=
  [[ldy (.direct (.name "i"))], [lda (.byY (.name "a"))], [sta (.direct (.plus (.name "a") 7))]]

end Moving

open Moving Assignment in
theorem byteRules_agree_moving : ∃ ls d e, standaloneLines none window .start = some ls ∧
    layout.run code.lines cpu = some d ∧ layout.run ls cpu = some e ∧
    d.x = e.x ∧ ∀ p, OffStack p → d.mem p = e.mem p := by
  have hr : byteRule byteDests[2] byteSources[4] ∈ byteRules :=
    List.mem_flatMap.mpr ⟨_, List.getElem_mem _, List.mem_map_of_mem (List.getElem_mem _)⟩
  have hoffer : (byteRule byteDests[2] byteSources[4]).offer? window .empty =
      some ⟨"byte array[const] = array[var]", code, 4, false⟩ := by decide
  refine byteRules_agree layout none .start hr hoffer (by decide) (by decide) (by decide) ?_
    (by decide)
  refine ⟨by decide, ?_⟩
  rintro _ ⟨⟩
  refine ⟨by decide, ?_⟩
  rintro _ ⟨⟩
  refine ⟨nofun, ?_⟩
  rintro _ ⟨⟩
  exact ⟨by decide, fun _ _ => trivial⟩

end Stack6502
