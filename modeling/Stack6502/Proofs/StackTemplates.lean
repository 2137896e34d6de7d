import Stack6502.Proofs.EvaluationStack
import Stack6502.Proofs.InPlace

/-!
# Templates of the evaluation stack

Each template of code for one instruction, run on operands in memory, does what the operand stack
says. The templates stand here without the tables they are found in.
-/
namespace Stack6502

open Asm Layout

structure Cell.LiesAt (L : Layout) (k : Cell) (a : Int) : Prop where
  lo : ∀ x y, L.address? x y k.lo = some (.ofInt 16 a)
  hi : ∀ x y, L.address? x y k.hi = some (.ofInt 16 (a + 1))

theorem Cell.LiesAt.named (L : Layout) (sym : Text) :
    (Cell.named sym).LiesAt L (L.address sym) := ⟨fun _ _ => rfl, fun _ _ => rfl⟩

/-- Addresses are counted in 64 bits, but only the last 16 are used. -/
theorem ofInt_bmod (v : Int) :
    BitVec.ofInt 16 (v.bmod 0x10000000000000000) = BitVec.ofInt 16 v := by
  apply BitVec.eq_of_toNat_eq
  rw [BitVec.toNat_ofInt, BitVec.toNat_ofInt, Int.bmod_def]
  split <;> omega

theorem Cell.LiesAt.memory (L : Layout) (a : Int64) : (Cell.memory a).LiesAt L a.toInt := by
  refine ⟨fun _ _ => rfl, fun _ _ => ?_⟩
  rw [Cell.memory, address?, value, Int64.toInt_add, ofInt_bmod]
  rfl

theorem Layout.value_elem_eq (L : Layout) (array : Text) (i size : Int64) :
    L.value (.elem array i size) = L.address array + (i * size).toInt := by
  rw [Place.elem]
  split
  next h =>
    rw [h]
    exact (Int.add_zero _).symm
  next => rfl

/-- The address of an element, also where the offset wraps around. -/
theorem ofInt_value_elem (L : Layout) (array : Text) (i size : Int64) :
    BitVec.ofInt 16 (L.value (.elem array i size)) =
      BitVec.ofInt 16 (L.address array + i.toInt * size.toInt) := by
  rw [L.value_elem_eq, Int64.toInt_mul, BitVec.ofInt_add, ofInt_bmod, ← BitVec.ofInt_add]

theorem Cell.LiesAt.element (L : Layout) (array : Text) (i : Int64) :
    (Cell.element array i).LiesAt L (L.address array + i.toInt * 2) := by
  refine ⟨fun _ _ => ?_, fun _ _ => ?_⟩
  · rw [Cell.element, address?, ofInt_value_elem]
    rfl
  · rw [Cell.element, address?, value, BitVec.ofInt_add, ofInt_value_elem, ← BitVec.ofInt_add]
    rfl

/-- The last bits of a constant, in any width up to its own. -/
theorem setWidth_toBitVec_of_le {w : Nat} (hw : w ≤ 64) (v : Int64) :
    v.toBitVec.setWidth w = BitVec.ofInt w v.toInt :=
  (BitVec.signExtend_eq_setWidth_of_le v.toBitVec hw).symm

theorem setWidth_toBitVec (v : Int64) : v.toBitVec.setWidth 8 = BitVec.ofInt 8 v.toInt :=
  setWidth_toBitVec_of_le (by decide) v

theorem setWidth_toBitVec_shiftRight (v : Int64) :
    (v.toBitVec >>> 8).setWidth 8 = Word.high (BitVec.ofInt 16 v.toInt) := by
  have hv : v.toInt = _ := BitVec.toInt_eq_toNat_cond v.toBitVec
  have hlt := v.toBitVec.isLt
  apply BitVec.eq_of_toNat_eq
  rw [Word.toNat_high, BitVec.toNat_ofInt, hv, BitVec.toNat_setWidth, BitVec.toNat_ushiftRight,
    Nat.shiftRight_eq_div_pow]
  split <;> omega

theorem ofInt_ne_succ (a : Int) : BitVec.ofInt 16 a ≠ BitVec.ofInt 16 (a + 1) := by
  intro h
  have hn := congrArg BitVec.toNat h
  simp only [BitVec.toNat_ofInt] at hn
  omega

namespace Simulates

variable {L : Layout} {σ : Operands} {k : Cell} {a : Int} {st : List Entry}

theorem pushByte (v : Int64) (hroom : σ.stack.length < 255) :
    Simulates L [lda (lowByte v), sta (low 0), dex] σ (σ.push (.byte (.ofInt 8 v.toInt))) := by
  intro c hc
  have hx := hc.depth
  simp [lowByte]
  refine hc.replace_slot [] rfl ?_ (SameBut.refl.update_low _) ?_
  · simp; omega
  · simp [Entry.StandsAt, setWidth_toBitVec]

theorem pushWord (v : Int64) (hroom : σ.stack.length < 255) :
    Simulates L [lda (lowByte v), sta (low 0), lda (highByte v), sta (high 0), dex] σ
      (σ.push (.word (.ofInt 16 v.toInt))) := by
  intro c hc
  have hx := hc.depth
  have hne := lowSlot_ne_highSlot c.x.isLt c.x.isLt
  simp [lowByte, Asm.highByte]
  refine hc.replace_slot [] rfl ?_ ((SameBut.refl.update_low _).update_high _) ?_
  · simp; omega
  · simp [Entry.StandsAt, hne, Word.low_ofInt, setWidth_toBitVec, setWidth_toBitVec_shiftRight]

theorem loadByte (hk : k.LiesAt L a) (hfree : Site.IsFree ⟨.byte, a⟩)
    (hroom : σ.stack.length < 255) :
    Simulates L [lda k.lo, sta (low 0), dex] σ (σ.load ⟨.byte, a⟩) := by
  intro c hc
  have hx := hc.depth
  have hget := hc.get_site hfree
  simp [load_of_address (hk.lo _ _)]
  refine hc.replace_slot [] rfl ?_ (SameBut.refl.update_low _) ?_
  · simp; omega
  · rw [← hget]
    simp [Memory.get, Entry.StandsAt]

theorem loadWord (hk : k.LiesAt L a) (hfree : Site.IsFree ⟨.word, a⟩)
    (hroom : σ.stack.length < 255) :
    Simulates L [lda k.lo, sta (low 0), lda k.hi, sta (high 0), dex] σ (σ.load ⟨.word, a⟩) := by
  intro c hc
  have hx := hc.depth
  have hget := hc.get_site hfree
  have hne := lowSlot_ne_highSlot c.x.isLt c.x.isLt
  have hsecond := hfree.second.ne_lowSlot c.x.isLt
  simp [load_of_address (hk.lo _ _), load_of_address (hk.hi _ _), hsecond]
  refine hc.replace_slot [] rfl ?_ ((SameBut.refl.update_low _).update_high _) ?_
  · simp; omega
  · rw [← hget]
    simp [Memory.get, Entry.StandsAt, hne]

theorem storeByte {b : Byte} (hk : k.LiesAt L a) (hfree : Site.IsFree ⟨.byte, a⟩)
    (hst : σ.stack = .byte b :: st) :
    Simulates L [inx, lda (low 0), sta k.lo] σ ⟨Memory.set σ.mem a (.byte b), st⟩ := by
  intro c hc
  have htop : c.mem (lowSlot (c.x.toNat + 1)) = b := hc.top hst
  have hinx := Nat.mod_eq_of_lt (hc.slot_lt hst)
  simp [save_of_address (hk.lo _ _), hinx, htop]
  exact hc.replace_site [.byte b] hst (by simp [hinx]) rfl hfree

theorem storeWord {w : Word} (hk : k.LiesAt L a) (hfree : Site.IsFree ⟨.word, a⟩)
    (hst : σ.stack = .word w :: st) :
    Simulates L [inx, lda (low 0), sta k.lo, lda (high 0), sta k.hi] σ
      ⟨Memory.set σ.mem a (.word w), st⟩ := by
  intro c hc
  obtain ⟨hlow, hhigh⟩ := hc.top hst
  have hinx := Nat.mod_eq_of_lt (hc.slot_lt hst)
  have hne := (hfree.first.ne_highSlot (hc.slot_lt hst)).symm
  simp [save_of_address (hk.lo _ _), save_of_address (hk.hi _ _), hinx, hlow, hhigh, hne]
  exact hc.replace_site [.word w] hst (by simp [hinx]) rfl hfree

theorem drop {e : Entry} (hst : σ.stack = e :: st) :
    Simulates L [inx] σ { σ with stack := st } := by
  intro c hc
  have hinx := Nat.mod_eq_of_lt (hc.slot_lt hst)
  have hst' : σ.stack = [e] ++ st := hst
  simp
  show Represents _ ⟨σ.mem, [] ++ st⟩
  exact hc.replace hst' (by simp [hinx]) trivial (fun _ _ _ => ⟨rfl, rfl⟩) hc.mem

section

variable {sym : Text} {i : Byte}

theorem readByte (hfree : Site.IsFree ⟨.byte, L.address sym + i.toNat⟩)
    (hst : σ.stack = .byte i :: st) :
    Simulates L [ldy (low 1), lda (.byY (.name sym)), sta (low 1)] σ
      ⟨σ.mem, Memory.get σ.mem (L.address sym + i.toNat) .byte :: st⟩ := by
  intro c hc
  have htop : c.mem (lowSlot (c.x.toNat + 1)) = i := hc.top hst
  have hget := hc.get_site hfree
  simp [htop, value]
  refine hc.replace_slot [.byte i] hst rfl (SameBut.refl.update_low _) ?_
  rw [← hget]
  simp [Memory.get, Entry.StandsAt]

theorem writeByte {b : Byte} (hfree : Site.IsFree ⟨.byte, L.address sym + i.toNat⟩)
    (hst : σ.stack = .byte i :: .byte b :: st) :
    Simulates L [inx, ldy (low 0), inx, lda (low 0), sta (.byY (.name sym))] σ
      ⟨Memory.set σ.mem (L.address sym + i.toNat) (.byte b), st⟩ := by
  intro c hc
  have hi : c.mem (lowSlot (c.x.toNat + 1)) = i := hc.top hst
  have hb : c.mem (lowSlot (c.x.toNat + 1 + 1)) = b := hc.second hst
  have hinx := Nat.mod_eq_of_lt (hc.slot_lt hst)
  have hinx' : (c.x.toNat + 1 + 1) % 256 = _ := Nat.mod_eq_of_lt (hc.second_slot_lt hst)
  simp [hinx, hinx', hi, hb, value]
  exact hc.replace_site [.byte i, .byte b] hst (by simp [hinx, hinx']) rfl hfree

variable (hfree : Site.IsFree ⟨.word, L.address sym + (wordOffset i).toNat⟩)

include hfree

theorem readWord (hst : σ.stack = .byte i :: st) :
    Simulates L [lda (low 1), asl acc, tay, lda (.byY (.name sym)), sta (low 1),
      lda (.byY (.plus (.name sym) 1)), sta (high 1)] σ
      ⟨σ.mem, Memory.get σ.mem (L.address sym + (wordOffset i).toNat) .word :: st⟩ := by
  intro c hc
  have htop : c.mem (lowSlot (c.x.toNat + 1)) = i := hc.top hst
  have hget := hc.get_site hfree
  have hlt := hc.slot_lt hst
  have hsecond := hfree.second.ne_lowSlot hlt
  have hasl (b : Bool) : (Shift.asl b i).2 = wordOffset i := rfl
  simp [htop, value, hasl, Int.add_right_comm _ 1, hsecond]
  refine hc.replace_slot [.byte i] hst rfl ((SameBut.refl.update_low _).update_high _) ?_
  rw [← hget]
  simp [Memory.get, Entry.StandsAt, lowSlot_ne_highSlot hlt hlt]

theorem writeWord {w : Word} (hst : σ.stack = .byte i :: .word w :: st) :
    Simulates L [inx, lda (low 0), asl acc, tay, inx, lda (low 0), sta (.byY (.name sym)),
      lda (high 0), sta (.byY (.plus (.name sym) 1))] σ
      ⟨Memory.set σ.mem (L.address sym + (wordOffset i).toNat) (.word w), st⟩ := by
  intro c hc
  have hi : c.mem (lowSlot (c.x.toNat + 1)) = i := hc.top hst
  obtain ⟨hlow, hhigh⟩ : c.mem (lowSlot (c.x.toNat + 1 + 1)) = w.low ∧
      c.mem (highSlot (c.x.toNat + 1 + 1)) = w.high := hc.second hst
  have hlt := hc.second_slot_lt hst
  have hinx := Nat.mod_eq_of_lt (hc.slot_lt hst)
  have hinx' : (c.x.toNat + 1 + 1) % 256 = _ := Nat.mod_eq_of_lt hlt
  have hfirst := (hfree.first.ne_highSlot hlt).symm
  have hasl (b : Bool) : (Shift.asl b i).2 = wordOffset i := rfl
  simp [hinx, hinx', hi, hlow, hhigh, value, hasl, Int.add_right_comm _ 1, hfirst]
  exact hc.replace_site [.byte i, .word w] hst (by simp [hinx, hinx']) rfl hfree

end

theorem incByte (hk : k.LiesAt L a) (hfree : Site.IsFree ⟨.byte, a⟩) :
    Simulates L [inc k.lo] σ (σ.bump 1 ⟨.byte, a⟩) := by
  intro c hc
  simp [change_of_address (hk.lo _ _)]
  refine hc.replace_site [] rfl rfl ?_ hfree
  simp [Memory.set, hc.mem _ hfree.first]

theorem decByte (hk : k.LiesAt L a) (hfree : Site.IsFree ⟨.byte, a⟩) :
    Simulates L [dec k.lo] σ (σ.bump (-1) ⟨.byte, a⟩) := by
  intro c hc
  simp [change_of_address (hk.lo _ _)]
  refine hc.replace_site [] rfl rfl ?_ hfree
  have hv (v : Byte) : v - 1#8 = v + BitVec.ofInt 8 (-1) := by
    revert v; decide +kernel
  simp [Memory.set, hc.mem _ hfree.first, hv]

theorem incWord (hk : k.LiesAt L a) (hfree : Site.IsFree ⟨.word, a⟩) :
    Simulates L [inc k.lo, bne next, inc k.hi, here] σ (σ.bump 1 ⟨.word, a⟩) := by
  intro c hc
  obtain ⟨d, hd, hw⟩ := run_incWord (c := c) (hk.lo _ _) (hk.hi _ _) (ofInt_ne_succ a)
  refine ⟨d, hd, hc.replace_site [] rfl (by simp [hw.x]) ?_ hfree⟩
  rw [hw.mem, hc.mem _ hfree.first, hc.mem _ hfree.second]
  rfl

theorem decWord (hk : k.LiesAt L a) (hfree : Site.IsFree ⟨.word, a⟩) :
    Simulates L [lda k.lo, bne next, dec k.hi, here, dec k.lo] σ (σ.bump (-1) ⟨.word, a⟩) := by
  intro c hc
  obtain ⟨d, hd, hw⟩ := run_decWord (c := c) (hk.lo _ _) (hk.hi _ _) (ofInt_ne_succ a)
  refine ⟨d, hd, hc.replace_site [] rfl (by simp [hw.x]) ?_ hfree⟩
  rw [hw.mem, hc.mem _ hfree.first, hc.mem _ hfree.second, BitVec.sub_eq_add_neg]
  rfl

theorem byteOp (o : ByteOp) {b v : Byte} (ho : ∀ carry, o.apply carry b = v)
    (hst : σ.stack = .byte b :: st) :
    Simulates L (o.onLocation Cell.top.lo) σ { σ with stack := .byte v :: st } := by
  intro c hc
  have htop : c.mem (lowSlot (c.x.toNat + 1)) = b := hc.top hst
  obtain ⟨d, hd, hw⟩ := o.run_onLocation (L := L) (c := c) address?_top_lo
  refine ⟨d, hd, hc.replace_slot [.byte b] hst (by simp [hw.x]) ?_ ?_⟩
  · rw [hw.mem]
    exact SameBut.refl.update_low _
  · rw [hw.mem, htop, ho]
    exact Function.update_self ..

theorem wordOp (o : WordOp) {w v : Word} (ho : ∀ carry, o.apply carry w = v)
    (hst : σ.stack = .word w :: st) :
    Simulates L (o.onCell .top) σ { σ with stack := .word v :: st } := by
  intro c hc
  obtain ⟨hlow, hhigh⟩ := hc.top hst
  have hlt := hc.slot_lt hst
  have hne := lowSlot_ne_highSlot hlt hlt
  obtain ⟨d, hd, hw⟩ := o.run_onCell (L := L) (c := c) address?_top_lo address?_top_hi hne
  refine ⟨d, hd, hc.replace_slot [.word w] hst (by simp [hw.x]) ?_ ?_⟩
  · rw [hw.mem]
    exact (SameBut.refl.update_low _).update_high _
  · rw [hw.mem, hlow, hhigh, Word.ofBytes_high_low, ho]
    simp [Entry.StandsAt, Memory.put, hne]

/-- Lines that work on A and the top byte leave the result in A. -/
theorem onBytes {ls : List Line} {f : Byte → Byte → Byte}
    (hls : ∀ c : Cpu, ∃ d, L.run ls c = some d ∧ d.x = c.x ∧ d.mem = c.mem ∧
      d.a = f c.a (c.mem (lowSlot (c.x.toNat + 1)))) {r l : Byte}
    (hst : σ.stack = .byte r :: .byte l :: st) :
    Simulates L ([lda (low 2)] ++ (ls ++ [inx, sta (low 1)])) σ
      { σ with stack := .byte (f l r) :: st } := by
  intro c hc
  have hr : c.mem (lowSlot (c.x.toNat + 1)) = r := hc.top hst
  have hl : c.mem (lowSlot (c.x.toNat + 2)) = l := hc.second hst
  have hlt := hc.second_slot_lt hst
  have hinx : (c.x.toNat + 1) % 256 = c.x.toNat + 1 := by omega
  obtain ⟨d, hd, hdx, hdm, hda⟩ := hls (c.setA l)
  have hload : L.run [lda (low 2)] c = some (c.setA l) := by simp [hl]
  rw [run_append hload, run_append hd]
  have hda' : d.a = f l r := by simpa [hr] using hda
  simp [hdx, hdm, hinx, hda']
  refine hc.replace_slot [.byte r, .byte l] hst (by simp [hinx]) (SameBut.refl.update_low _) ?_
  simp [Entry.StandsAt]

/-- A bitwise operation of the processor applied to both bytes. -/
theorem onWords {m : Mnemonic} {g : Byte → Byte → Byte} {f : Word → Word → Word}
    (hm : ∀ c o, L.step c o m = L.load c o fun c v => c.setA (g c.a v))
    (hlow : ∀ l r, (f l r).low = g l.low r.low) (hhigh : ∀ l r, (f l r).high = g l.high r.high)
    {r l : Word} (hst : σ.stack = .word r :: .word l :: st) :
    Simulates L [lda (low 2), .instr m (low 1), sta (low 2), lda (high 2), .instr m (high 1),
      sta (high 2), inx] σ { σ with stack := .word (f l r) :: st } := by
  intro c hc
  obtain ⟨hrl, hrh⟩ := hc.top hst
  obtain ⟨hll, hlh⟩ := hc.second hst
  have hlt := hc.second_slot_lt hst
  have hinx : (c.x.toNat + 1) % 256 = c.x.toNat + 1 := by omega
  have h1 : highSlot (c.x.toNat + 1) ≠ lowSlot (c.x.toNat + 2) :=
    (lowSlot_ne_highSlot hlt (hc.slot_lt hst)).symm
  have h2 := lowSlot_ne_highSlot hlt hlt
  have hlda (c : Cpu) (o : Operand) : L.step c o .lda = L.load c o Cpu.setA := rfl
  have hsta (c : Cpu) (o : Operand) : L.step c o .sta = L.save c o c.a := rfl
  have hinx' (c : Cpu) (o : Operand) : L.step c o .inx = some ⟨0, c.setX (c.x + 1)⟩ := rfl
  simp [-step, hlda, hsta, hinx', hm, hrl, hrh, hll, hlh, h1, h2.symm]
  refine hc.replace_slot [.word r, .word l] hst (by simp [hinx])
    ((SameBut.refl.update_low _).update_high _) ?_
  simp [Entry.StandsAt, h2, hlow, hhigh]

theorem notByte {b : Byte} (hst : σ.stack = .byte b :: st) :
    Simulates L [lda (low 1), beq next, lda (.digit 0), beq (.forward 2), here, lda (.digit 1),
      here, sta (low 1)] σ { σ with stack := .byte (if b = 0 then 1 else 0) :: st } := by
  intro c hc
  have htop : c.mem (lowSlot (c.x.toNat + 1)) = b := hc.top hst
  by_cases hb : b = 0#8
  · simp [htop, hb]
    exact hc.replace_slot [.byte b] hst rfl (SameBut.refl.update_low _) (by simp [Entry.StandsAt])
  · simp [htop, hb]
    exact hc.replace_slot [.byte b] hst rfl (SameBut.refl.update_low _) (by simp [Entry.StandsAt])

theorem notWord {w : Word} (hst : σ.stack = .word w :: st) :
    Simulates L [lda (low 1), ora (high 1), beq next, lda (.digit 0), beq (.forward 2), here,
      lda (.digit 1), here, sta (low 1), lda (.digit 0), sta (high 1)] σ
      { σ with stack := .word (if w = 0 then 1 else 0) :: st } := by
  intro c hc
  obtain ⟨hlow, hhigh⟩ := hc.top hst
  have hlt := hc.slot_lt hst
  have hne := lowSlot_ne_highSlot hlt hlt
  cases hb : w.low ||| w.high == 0#8 with
  | true =>
    have hw : w = 0#16 := Word.low_or_high_eq_zero_iff.mp (beq_iff_eq.mp hb)
    simp [hlow, hhigh, hb]
    refine hc.replace_slot [.word w] hst rfl ((SameBut.refl.update_low _).update_high _) ?_
    rw [if_pos hw]
    simp [Entry.StandsAt, hne]
    decide
  | false =>
    have hw : w ≠ 0#16 := mt Word.low_or_high_eq_zero_iff.mpr (beq_eq_false_iff_ne.mp hb)
    simp [hlow, hhigh, hb]
    refine hc.replace_slot [.word w] hst rfl ((SameBut.refl.update_low _).update_high _) ?_
    rw [if_neg hw]
    simp [Entry.StandsAt, hne]
    decide

theorem zeroExtend {b : Byte} (hst : σ.stack = .byte b :: st) :
    Simulates L [lda (.digit 0), sta (high 1)] σ
      { σ with stack := .word (b.setWidth 16) :: st } := by
  intro c hc
  have htop : c.mem (lowSlot (c.x.toNat + 1)) = b := hc.top hst
  have hlt := hc.slot_lt hst
  have hne := lowSlot_ne_highSlot hlt hlt
  simp
  refine hc.replace_slot [.byte b] hst rfl (SameBut.refl.update_high _) ?_
  simp [Entry.StandsAt, ← Word.ofBytes_zeroExtend, hne, htop]

theorem signExtend {b : Byte} (hst : σ.stack = .byte b :: st) :
    Simulates L [lda (low 1), ora (.imm 0x7f), bmi next, lda (.digit 0), here,
      sta (high 1)] σ { σ with stack := .word (b.signExtend 16) :: st } := by
  intro c hc
  have htop : c.mem (lowSlot (c.x.toNat + 1)) = b := hc.top hst
  have hlt := hc.slot_lt hst
  have hne := lowSlot_ne_highSlot hlt hlt
  have hmsb : (127#8).msb = false := by decide
  have hor : ∀ v : Byte, v.msb = true → v ||| 127#8 = 255#8 := by decide
  rw [← Word.ofBytes_signExtend]
  cases hb : b.msb with
  | false =>
    simp [htop, hb, hmsb]
    refine hc.replace_slot [.byte b] hst rfl (SameBut.refl.update_high _) ?_
    simp [Entry.StandsAt, hne, htop]
  | true =>
    simp [htop, hb, hor b hb]
    refine hc.replace_slot [.byte b] hst rfl (SameBut.refl.update_high _) ?_
    simp [Entry.StandsAt, hne, htop]

theorem highByte {w : Word} (hst : σ.stack = .word w :: st) :
    Simulates L [lda (high 1), sta (low 1)] σ { σ with stack := .byte w.high :: st } := by
  intro c hc
  obtain ⟨-, hhigh⟩ := hc.top hst
  simp [hhigh]
  refine hc.replace_slot [.word w] hst rfl (SameBut.refl.update_low _) ?_
  simp [Entry.StandsAt]

/-- Without code, an entry may count as another whose bytes stand there as well. -/
theorem relabel {e f : Entry} (hst : σ.stack = e :: st)
    (hef : ∀ m i, e.StandsAt m i → f.StandsAt m i) :
    Simulates L [] σ { σ with stack := f :: st } := by
  intro c hc
  exact ⟨c, rfl, hc.replace_slot [e] hst rfl SameBut.refl (hef _ _ (hc.top hst))⟩

end Simulates

end Stack6502
