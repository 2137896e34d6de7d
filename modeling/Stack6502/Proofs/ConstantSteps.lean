import Stack6502.Proofs.Widening

/-!
# Constants added in place

A stored byte or word is stepped by a constant where it is, in a register, a pair of registers or
memory. The constants zero and one have code of their own; other constants are added with the carry
of the low bytes going into the high ones.
-/
namespace Stack6502

open Asm Layout

/-! ### Sums of words by bytes -/

namespace Word

variable (h l k m : Byte)

theorem ofBytes_sum :
    ofBytes (Byte.sum (Byte.sum false l m).1 h k).2 (Byte.sum false l m).2 =
      ofBytes h l + ofBytes k m := by
  apply BitVec.eq_of_toNat_eq
  have hl := l.isLt
  have hh := h.isLt
  have hk := k.isLt
  have hm := m.isLt
  simp only [toNat_ofBytes, Byte.toNat_sum, Byte.toNat_sum_carry, BitVec.toNat_add,
    Bool.toNat_false]
  omega

/-- The complement of the subtrahend is added, and the carry starts out set. -/
theorem ofBytes_difference :
    ofBytes (Byte.sum (Byte.sum true l (~~~m)).1 h (~~~k)).2 (Byte.sum true l (~~~m)).2 =
      ofBytes h l - ofBytes k m := by
  apply BitVec.eq_of_toNat_eq
  have hl := l.isLt
  have hh := h.isLt
  have hk := k.isLt
  have hm := m.isLt
  simp only [toNat_ofBytes, Byte.toNat_sum, Byte.toNat_sum_carry, BitVec.toNat_sub,
    BitVec.toNat_not, Bool.toNat_true]
  omega

theorem ofBytes_ofInt (n : Int) : ofBytes (high (.ofInt 16 n)) (.ofInt 8 n) = .ofInt 16 n := by
  rw [← low_ofInt, ofBytes_high_low]

end Word

/-- Only the last byte of a constant counts for a byte. -/
theorem ofInt_and_ff (n : Int64) :
    BitVec.ofInt 8 (n &&& 0xff).toInt = BitVec.ofInt 8 n.toInt := by
  rw [← setWidth_toBitVec, ← setWidth_toBitVec, Int64.toBitVec_and, BitVec.setWidth_and]
  exact BitVec.and_allOnes

theorem ofInt_and_ffff (n : Int64) :
    BitVec.ofInt 16 (n &&& 0xffff).toInt = BitVec.ofInt 16 n.toInt := by
  rw [← setWidth_toBitVec_of_le (by decide), ← setWidth_toBitVec_of_le (by decide),
    Int64.toBitVec_and, BitVec.setWidth_and]
  exact BitVec.and_allOnes

section

variable {L : Layout} {c : Cpu} (n : Int64)

theorem Layout.fetch?_lowByte : L.fetch? c (lowByte n) = some (.ofInt 8 n.toInt) :=
  congrArg some (setWidth_toBitVec n)

theorem Layout.fetch?_highByte :
    L.fetch? c (highByte n) = some (Word.high (.ofInt 16 n.toInt)) := by
  simp [highByte, fetch?, setWidth_toBitVec_shiftRight]

end

/-! ### Values that are stepped -/

def Entry.plus (n : Int) : Entry → Entry
  | .byte b => .byte (b + .ofInt 8 n)
  | .word w => .word (w + .ofInt 16 n)

/-- What an addition or subtraction of `n` adds, and in which width. -/
def Opcode.sum? (n : Int) : Opcode → Option (Width × Int)
  | .addUB | .addB => some (.byte, n)
  | .subUB | .subB => some (.byte, -n)
  | .addUW | .addW => some (.word, n)
  | .subUW | .subW => some (.word, -n)
  | _ => none

def Ref.located (L : Layout) : Ref → Located
  | .var sym => ⟨.ofName sym, L.address sym⟩
  | .mem a => ⟨.mem, a.toInt⟩

def Ref.cell : Ref → Cell
  | .var sym => .named sym
  | .mem a => .memory a

theorem Ref.liesAt_cell (L : Layout) (r : Ref) : r.cell.LiesAt L (r.located L).address := by
  cases r with
  | var sym => exact .named L sym
  | mem a => exact .memory L a

namespace Located

def held? (v : Located) (c : Cpu) : Width → Option Entry
  | .byte => (v.byte? c).map .byte
  | .word => (v.word? c).map .word

theorem isSome_byte? (v : Located) (c : Cpu) : (v.held? c .byte).isSome = !v.home.isPair := by
  rw [held?, Option.isSome_map, byte?]
  rcases v.home with ⟨_ | _ | _⟩ | _ | _ | _ <;> rfl

theorem isSome_word? (v : Located) (c : Cpu) :
    (v.held? c .word).isSome = (v.home.isPair || !v.home.isRegister) := by
  rw [held?, Option.isSome_map, word?]
  rcases v.home with _ | ⟨_ | _ | _⟩ | _ | _ <;> rfl

/-- Nothing changes but registers, the bytes of the value and the hardware stack; X changes only as
a part of the home. -/
structure Keeps (v : Located) (width : Width) (c d : Cpu) : Prop where
  sp : d.sp = c.sp
  x : v.home.usesX = false → d.x = c.x
  mem : ∀ p, p.high ≠ 0x01 → p ∉ v.bytes width → d.mem p = c.mem p

structure Stepped (v : Located) (width : Width) (n : Int) (c d : Cpu) : Prop where
  entry : ∃ e, v.held? c width = some e ∧ v.held? d width = some (e.plus n)
  keeps : v.Keeps width c d

namespace Stepped

variable {v : Located} {width : Width} {n : Int} {c d : Cpu}

theorem zero (h : (v.held? c width).isSome) : v.Stepped width 0 c c := by
  obtain ⟨e, he⟩ := Option.isSome_iff_exists.mp h
  refine ⟨⟨e, he, ?_⟩, rfl, fun _ => rfl, fun _ _ _ => rfl⟩
  rw [he]
  cases e <;> simp [Entry.plus]

theorem reg {r : Reg} (hv : v.home = .reg r) (hd : d.reg r = c.reg r + .ofInt 8 n)
    (hsp : d.sp = c.sp) (hx : v.home.usesX = false → d.x = c.x) (hmem : d.mem = c.mem) :
    v.Stepped .byte n c d := by
  have hbyte (c : Cpu) : v.held? c .byte = some (.byte (c.reg r)) := by
    cases r <;> simp [held?, byte?, hv, Home.byte?, Cpu.reg]
  refine ⟨⟨_, hbyte c, ?_⟩, hsp, hx, fun p _ _ => by rw [hmem]⟩
  rw [hbyte, hd]
  rfl

theorem update (hv : v.home.isRegister = false)
    (hd : c.Writes (Function.update c.mem v.low (c.mem v.low + .ofInt 8 n)) d) :
    v.Stepped .byte n c d := by
  have hbyte (c : Cpu) : v.held? c .byte = some (.byte (c.mem v.low)) := by
    cases hhome : v.home <;> simp_all [held?, byte?, Home.byte?, Home.isRegister]
  refine ⟨⟨_, hbyte c, ?_⟩, hd.sp, fun _ => hd.x, fun p _ hp => ?_⟩
  · rw [hbyte, hd.mem, Function.update_self]
    rfl
  · have hne : p ≠ v.low := by simpa [bytes, hv] using hp
    rw [hd.mem, Function.update_of_ne hne]

theorem pair {w : Word} (hc : v.word? c = some w) (hd : v.word? d = some (w + .ofInt 16 n))
    (hsp : d.sp = c.sp) (hx : v.home.usesX = false → d.x = c.x)
    (hmem : ∀ p, p.high ≠ 0x01 → d.mem p = c.mem p) : v.Stepped .word n c d := by
  refine ⟨⟨.word w, by simp [held?, hc], by simp [held?, hd, Entry.plus]⟩, hsp, hx, ?_⟩
  exact fun p hp _ => hmem p hp

theorem put (hv : v.home.isRegister = false) (hd : c.Writes
      (c.mem.put v.low v.high (.ofBytes (c.mem v.high) (c.mem v.low) + .ofInt 16 n)) d) :
    v.Stepped .word n c d := by
  have hc : v.word? c = some (.ofBytes (c.mem v.high) (c.mem v.low)) := by
    cases hhome : v.home <;> simp_all [word?, Home.word?, Home.isRegister]
  obtain ⟨hword, hmem⟩ := word?_of_put hv hd.mem
  refine ⟨⟨_, by rw [held?, hc]; rfl, by rw [held?, hword]; rfl⟩, hd.sp, fun _ => hd.x, ?_⟩
  exact fun p _ hp => hmem p hp

theorem width_of_held? {e : Entry} (h : v.held? c width = some e) : e.width = width := by
  cases width with
  | byte | word =>
    obtain ⟨a, -, rfl⟩ := Option.map_eq_some_iff.mp h
    rfl

theorem congr {m : Int} (h : v.Stepped width m c d)
    (hmn : ∀ e : Entry, e.width = width → e.plus m = e.plus n) : v.Stepped width n c d := by
  obtain ⟨⟨e, he, hplus⟩, hkeeps⟩ := h
  exact ⟨⟨e, he, hmn e (width_of_held? he) ▸ hplus⟩, hkeeps⟩

end Stepped

/-- In a processor of any state the lines change the value by `n`. -/
def StepsBy (v : Located) (L : Layout) (width : Width) (n : Int) (ls : List Line) : Prop :=
  ∀ c, ∃ d, L.run ls c = some d ∧ v.Stepped width n c d

end Located

theorem update_stackAddress {p : Word} (hp : p.high ≠ 0x01) (m : Memory) (s v : Byte) :
    Function.update m (Cpu.stackAddress s) v p = m p := by
  refine Function.update_of_ne ?_ _ _
  rintro rfl
  exact hp (Word.high_ofBytes ..)

namespace Idiom

variable {L : Layout} {k : Cell} {v : Located} {isSum : Bool}

/-- A constant with the sign of what is done with it. -/
def signed (isSum : Bool) (n : Int) : Int := if isSum then n else -n

/-! ### Bytes -/

theorem run_addByte (isSum : Bool) (n : Int64) (c : Cpu) :
    ∃ d, L.run (addByte isSum n) c = some d ∧ d.a = c.a + .ofInt 8 (signed isSum n.toInt) ∧
      c.Writes c.mem d := by
  have hn (c : Cpu) := load_of_fetch (L := L) (c := c) (fetch?_lowByte n)
  cases isSum with
  | true =>
    simp [addByte, hn, Byte.sum_false, signed]
    exact ⟨rfl, rfl, rfl, rfl⟩
  | false =>
    simp [addByte, hn, Byte.sum_true_not, signed, BitVec.ofInt_neg, BitVec.sub_eq_add_neg]
    exact ⟨rfl, rfl, rfl, rfl⟩

/-- A register is brought into A and taken back from it. -/
theorem run_addByte_through (isSum : Bool) (n : Int64) (into back : Line) {c e : Cpu}
    {f : Cpu → Cpu} (hinto : L.run [into] c = some e) (hback : ∀ d, L.run [back] d = some (f d)) :
    ∃ d, L.run (Code.lines [[into], addByte isSum n, [back]]) c = some (f d) ∧
      d.a = e.a + .ofInt 8 (signed isSum n.toInt) ∧ e.Writes e.mem d := by
  obtain ⟨d, hd, ha, hwrites⟩ := run_addByte (L := L) isSum n e
  refine ⟨d, ?_, ha, hwrites⟩
  simp only [Code.lines, List.flatten_cons, List.flatten_nil, List.append_nil]
  rw [run_append hinto, run_append hd, hback]

theorem steps_incByte (hk : k.LiesAt L v.address) {ls : List Line}
    (h : v.home.incByte k = some ls) : v.StepsBy L .byte 1 ls := by
  intro c
  obtain ⟨home, a⟩ := v
  cases home with
  | pair p => cases h
  | reg r =>
    cases r with
    | a =>
      cases h
      simp
      exact .reg rfl (Byte.sum_false ..) rfl (fun _ => rfl) rfl
    | x =>
      cases h
      simp
      exact .reg rfl rfl rfl (by simp [Home.usesX]) rfl
    | y =>
      cases h
      simp
      exact .reg rfl rfl rfl (fun _ => rfl) rfl
  | var | mem =>
    cases h
    simp [change_of_address (hk.lo _ _)]
    exact .update rfl ⟨rfl, rfl, rfl, rfl⟩

theorem steps_decByte (hk : k.LiesAt L v.address) {ls : List Line}
    (h : v.home.decByte k = some ls) : v.StepsBy L .byte (-1) ls := by
  have hminus (b : Byte) : b - 1#8 = b + BitVec.ofInt 8 (-1) := BitVec.sub_eq_add_neg b 1#8
  have hsbc (b : Byte) : (Byte.sum true b 254#8).2 = b - 1#8 := Byte.sum_true_not b 1#8
  intro c
  obtain ⟨home, a⟩ := v
  cases home with
  | pair p => cases h
  | reg r =>
    cases r with
    | a =>
      cases h
      simp
      exact .reg rfl ((hsbc c.a).trans (hminus c.a)) rfl (fun _ => rfl) rfl
    | x =>
      cases h
      simp
      exact .reg rfl (hminus _) rfl (by simp [Home.usesX]) rfl
    | y =>
      cases h
      simp
      exact .reg rfl (hminus _) rfl (fun _ => rfl) rfl
  | var | mem =>
    cases h
    simp [change_of_address (hk.lo _ _), hminus]
    exact .update rfl ⟨rfl, rfl, rfl, rfl⟩

/-- Constants without code of their own. -/
theorem steps_addByte (hk : k.LiesAt L v.address) (isSum : Bool) {n : Int64} (h0 : n ≠ 0)
    (h1 : n ≠ 1) {code : Code} (h : stepByte isSum n k v.home = some code) :
    v.StepsBy L .byte (signed isSum n.toInt) code.lines := by
  intro c
  obtain ⟨home, a⟩ := v
  cases home with
  | pair p => simp [stepByte, Home.isPair] at h
  | reg r =>
    cases r with
    | a =>
      obtain rfl : [addByte isSum n] = code := by simpa [stepByte, Home.isPair, h0, h1] using h
      obtain ⟨d, hd, ha, hwrites⟩ := run_addByte (L := L) isSum n c
      refine ⟨d, by simpa [Code.lines] using hd, ?_⟩
      exact .reg rfl ha hwrites.sp (fun _ => hwrites.x) hwrites.mem
    | x =>
      obtain rfl : [[txa], addByte isSum n, [tax]] = code := by
        simpa [stepByte, Home.isPair, h0, h1] using h
      obtain ⟨d, hd, ha, hwrites⟩ :=
        run_addByte_through (L := L) (c := c) isSum n txa tax rfl fun _ => rfl
      exact ⟨_, hd, .reg rfl ha hwrites.sp (by simp [Home.usesX]) hwrites.mem⟩
    | y =>
      obtain rfl : [[tya], addByte isSum n, [tay]] = code := by
        simpa [stepByte, Home.isPair, h0, h1] using h
      obtain ⟨d, hd, ha, hwrites⟩ :=
        run_addByte_through (L := L) (c := c) isSum n tya tay rfl fun _ => rfl
      exact ⟨_, hd, .reg rfl ha hwrites.sp (fun _ => hwrites.x) hwrites.mem⟩
  | var | mem =>
    obtain rfl : [[lda k.lo], addByte isSum n, [sta k.lo]] = code := by
      simpa [stepByte, Home.isPair, h0, h1] using h
    obtain ⟨d, hd, ha, hwrites⟩ := run_addByte (L := L) isSum n (c.setA (c.mem (.ofInt 16 a)))
    have hlines : Code.lines [[lda k.lo], addByte isSum n, [sta k.lo]] =
        [lda k.lo] ++ (addByte isSum n ++ [sta k.lo]) := by
      simp [Code.lines]
    have hload : L.run [lda k.lo] c = some (c.setA (c.mem (.ofInt 16 a))) := by
      simp [load_of_address (hk.lo _ _)]
    rw [hlines, run_append hload, run_append hd]
    simp [save_of_address (hk.lo _ _)]
    refine .update rfl ⟨hwrites.x, hwrites.y, hwrites.sp, ?_⟩
    simp [hwrites.mem, ha, Located.low]

theorem steps_stepByte (hk : k.LiesAt L v.address) {n : Int64} {code : Code}
    (h : stepByte isSum n k v.home = some code) :
    v.StepsBy L .byte (signed isSum n.toInt) code.lines := by
  by_cases h0 : n = 0
  · subst h0
    intro c
    have hhome : v.home.isPair = false ∧ code = [] := by
      cases hpair : v.home.isPair <;> simp_all [stepByte]
    obtain ⟨hpair, rfl⟩ := hhome
    have hsigned : signed isSum (0 : Int64).toInt = 0 := by cases isSum <;> rfl
    rw [hsigned]
    exact ⟨c, rfl, .zero (by rw [v.isSome_byte?, hpair]; rfl)⟩
  by_cases h1 : n = 1
  · subst h1
    obtain ⟨ls, hls, rfl⟩ : ∃ ls,
        (if isSum then v.home.incByte k else v.home.decByte k) = some ls ∧ [ls] = code := by
      cases hpair : v.home.isPair <;> simp_all [stepByte]
    rw [Code.lines, List.flatten_singleton]
    cases isSum with
    | true => exact steps_incByte hk hls
    | false => exact steps_decByte hk hls
  · exact steps_addByte hk isSum h0 h1 h

/-! ### Words -/

theorem steps_incWord (hk : k.LiesAt L v.address) {ls : List Line}
    (h : v.home.incWord k = some ls) : v.StepsBy L .word 1 ls := by
  have hsucc (h l : Byte) : Word.ofBytes (if l + 1#8 == 0#8 then h + 1#8 else h) (l + 1#8) =
      Word.ofBytes h l + 1#16 := by
    simpa using Word.ofBytes_succ h l
  intro c
  obtain ⟨home, a⟩ := v
  cases home with
  | reg r => cases h
  | pair p =>
    cases p with
    | ax =>
      cases h
      cases hz : c.a + 1#8 == 0#8
      all_goals
        have hw := hsucc c.x c.a
        rw [hz] at hw
        simp [Byte.sum_false, hz]
        exact .pair rfl (congrArg some hw) rfl (by simp [Home.usesX]) fun _ _ => rfl
    | ay =>
      cases h
      cases hz : c.a + 1#8 == 0#8
      all_goals
        have hw := hsucc c.y c.a
        rw [hz] at hw
        simp [Byte.sum_false, hz]
        exact .pair rfl (congrArg some hw) rfl (fun _ => rfl) fun _ _ => rfl
    | xy =>
      cases h
      cases hz : c.x + 1#8 == 0#8
      all_goals
        have hw := hsucc c.y c.x
        rw [hz] at hw
        simp [hz]
        exact .pair rfl (congrArg some hw) rfl (by simp [Home.usesX]) fun _ _ => rfl
  | var | mem =>
    cases h
    obtain ⟨d, hd, hwrites⟩ := run_incWord (c := c) (hk.lo _ _) (hk.hi _ _) (ofInt_ne_succ a)
    exact ⟨d, hd, .put rfl hwrites⟩

theorem steps_decWord (hk : k.LiesAt L v.address) {ls : List Line}
    (h : v.home.decWord k = some ls) : v.StepsBy L .word (-1) ls := by
  have hsbc (b : Byte) : (Byte.sum true b 254#8).2 = b - 1#8 := Byte.sum_true_not b 1#8
  have hminus (w : Word) : w - 1#16 = w + BitVec.ofInt 16 (-1) := BitVec.sub_eq_add_neg w 1#16
  have hpred (h l : Byte) : Word.ofBytes (if l == 0#8 then h - 1#8 else h) (l - 1#8) =
      Word.ofBytes h l + BitVec.ofInt 16 (-1) := by
    rw [← hminus]
    simpa using Word.ofBytes_pred h l
  intro c
  obtain ⟨home, a⟩ := v
  cases home with
  | reg r => cases h
  | pair p =>
    cases p with
    | ax =>
      cases h
      cases hz : c.a == 0#8
      all_goals
        have hw := hpred c.x c.a
        rw [hz] at hw
        simp [hsbc, hz]
        exact .pair rfl (congrArg some hw) rfl (by simp [Home.usesX]) fun _ _ => rfl
    | ay =>
      cases h
      cases hz : c.a == 0#8
      all_goals
        have hw := hpred c.y c.a
        rw [hz] at hw
        simp [hsbc, hz]
        exact .pair rfl (congrArg some hw) rfl (fun _ => rfl) fun _ _ => rfl
    | xy =>
      cases h
      cases hz : c.x == 0#8
      all_goals
        have hw := hpred c.y c.x
        rw [hz] at hw
        simp [hz]
        exact .pair rfl (congrArg some hw) rfl (by simp [Home.usesX]) fun _ _ => rfl
  | var | mem =>
    cases h
    obtain ⟨d, hd, hwrites⟩ := run_decWord (c := c) (hk.lo _ _) (hk.hi _ _) (ofInt_ne_succ a)
    rw [hminus] at hwrites
    exact ⟨d, hd, .put rfl hwrites⟩

/-- What is added when a byte of a constant is added or subtracted. -/
def addend (isSum : Bool) (v : Byte) : Byte := if isSum then v else ~~~v

/-- A constant added or subtracted byte by byte. -/
theorem ofBytes_addend (isSum : Bool) (n : Int) (h l : Byte) :
    Word.ofBytes
      (Byte.sum (Byte.sum (!isSum) l (addend isSum (.ofInt 8 n))).1 h
        (addend isSum (Word.high (.ofInt 16 n)))).2
      (Byte.sum (!isSum) l (addend isSum (.ofInt 8 n))).2 =
        Word.ofBytes h l + .ofInt 16 (signed isSum n) := by
  have hn := Word.ofBytes_ofInt n
  cases isSum with
  | true => exact (Word.ofBytes_sum h l _ _).trans (congrArg _ hn)
  | false =>
    refine (Word.ofBytes_difference h l _ _).trans ?_
    rw [hn, BitVec.sub_eq_add_neg, ← BitVec.ofInt_neg]
    rfl

section

variable {c : Cpu} {ls : List Line}

theorem run_carry :
    L.run ((if isSum then .instr .clc .none else .instr .sec .none) :: ls) c =
      L.run ls { c with carry := !isSum } := by
  cases isSum <;> rfl

theorem run_add {o : Operand} {b : Byte} (ho : L.fetch? c o = some b) :
    L.run ((if isSum then .instr .adc o else .instr .sbc o) :: ls) c =
      L.run ls (c.addCarry (addend isSum b)) := by
  cases isSum <;> simp [load_of_fetch ho, addend]

end

/-- Constants without code of their own. The low byte in A waits on the hardware stack. -/
theorem steps_addWord (hk : k.LiesAt L v.address) (isSum : Bool) {n : Int64} (h0 : n ≠ 0)
    (h1 : n ≠ 1) {code : Code} (h : stepWord isSum n k v.home = some code) :
    v.StepsBy L .word (signed isSum n.toInt) code.lines := by
  have hlow (c : Cpu) : L.fetch? c (lowByte n) = some (.ofInt 8 n.toInt) := fetch?_lowByte n
  have hhigh (c : Cpu) : L.fetch? c (highByte n) = some (Word.high (.ofInt 16 n.toInt)) :=
    fetch?_highByte n
  have hword := ofBytes_addend isSum n.toInt
  intro c
  obtain ⟨home, a⟩ := v
  cases home with
  | reg r => simp [stepWord, h0, h1] at h
  | pair p =>
    cases p with
    | ax =>
      simp only [stepWord, h0, h1, if_false, Option.some.injEq] at h
      subst h
      simp [Code.lines, Code.each, run_carry, run_add (hlow _), run_add (hhigh _), Cpu.push,
        Cpu.pull]
      refine .pair rfl (congrArg some (hword c.x c.a)) rfl (by simp [Home.usesX]) fun p hp => ?_
      exact update_stackAddress hp _ _ _
    | ay =>
      simp only [stepWord, h0, h1, if_false, Option.some.injEq] at h
      subst h
      simp [Code.lines, Code.each, run_carry, run_add (hlow _), run_add (hhigh _), Cpu.push,
        Cpu.pull]
      refine .pair rfl (congrArg some (hword c.y c.a)) rfl (fun _ => rfl) fun p hp => ?_
      exact update_stackAddress hp _ _ _
    | xy =>
      simp only [stepWord, h0, h1, if_false, Option.some.injEq] at h
      subst h
      simp [Code.lines, Code.each, run_carry, run_add (hlow _), run_add (hhigh _)]
      exact .pair rfl (congrArg some (hword c.y c.x)) rfl (by simp [Home.usesX]) fun _ _ => rfl
  | var | mem =>
    simp only [stepWord, h0, h1, if_false, Option.some.injEq] at h
    subst h
    have hne := (ofInt_ne_succ a).symm
    simp [Code.lines, Code.each, run_carry, run_add (hlow _), run_add (hhigh _),
      load_of_address (hk.lo _ _), load_of_address (hk.hi _ _), save_of_address (hk.lo _ _),
      save_of_address (hk.hi _ _), hne]
    refine .put rfl ⟨rfl, rfl, rfl, ?_⟩
    rw [← hword, Memory.put_ofBytes]
    rfl

theorem steps_stepWord (hk : k.LiesAt L v.address) {n : Int64} {code : Code}
    (h : stepWord isSum n k v.home = some code) :
    v.StepsBy L .word (signed isSum n.toInt) code.lines := by
  by_cases h0 : n = 0
  · subst h0
    intro c
    have hcode : (v.home.isPair || !v.home.isRegister) = true ∧ code = [] := by
      cases hreg : v.home.isRegister <;> cases hpair : v.home.isPair <;> simp_all [stepWord]
    obtain ⟨hhome, rfl⟩ := hcode
    have hsigned : signed isSum (0 : Int64).toInt = 0 := by cases isSum <;> rfl
    rw [hsigned]
    exact ⟨c, rfl, .zero (by rw [v.isSome_word?, hhome])⟩
  by_cases h1 : n = 1
  · subst h1
    obtain ⟨ls, hls, rfl⟩ : ∃ ls,
        (if isSum then v.home.incWord k else v.home.decWord k) = some ls ∧ [ls] = code := by
      simpa [stepWord] using h
    rw [Code.lines, List.flatten_singleton]
    cases isSum with
    | true => exact steps_incWord hk hls
    | false => exact steps_decWord hk hls
  · exact steps_addWord hk isSum h0 h1 h

/-! ### Steps of both widths -/

/-- Code exists for the homes that can hold a value of the width. -/
theorem isSome_stepByte (isSum : Bool) (n : Int64) (k : Cell) (home : Home) :
    (stepByte isSum n k home).isSome = !home.isPair := by
  rcases home with ⟨_ | _ | _⟩ | _ | _ | _ <;> by_cases h0 : n = 0 <;> by_cases h1 : n = 1 <;>
    cases isSum <;> simp [stepByte, Home.isPair, h0, h1, Home.incByte, Home.decByte]

theorem isSome_stepWord (isSum : Bool) (n : Int64) (k : Cell) (home : Home) :
    (stepWord isSum n k home).isSome = (home.isPair || !home.isRegister) := by
  rcases home with ⟨_ | _ | _⟩ | ⟨_ | _ | _⟩ | _ | _ <;> by_cases h0 : n = 0 <;>
    by_cases h1 : n = 1 <;> cases isSum <;>
    simp [stepWord, Home.isPair, Home.isRegister, h0, h1, Home.incWord, Home.decWord]

theorem signed_congr {w : Nat} {m n : Int} (h : BitVec.ofInt w m = BitVec.ofInt w n) :
    BitVec.ofInt w (signed isSum m) = BitVec.ofInt w (signed isSum n) := by
  cases isSum with
  | true => exact h
  | false =>
    change BitVec.ofInt w (-m) = BitVec.ofInt w (-n)
    rw [BitVec.ofInt_neg, h, BitVec.ofInt_neg]

namespace Step

variable {s : Step} {n : Int64} {code : Code}

theorem code_byte (L : Layout) (hs : s.width = .byte) (n : Int64) :
    s.code n = stepByte s.isSum (n &&& 0xff) s.ref.cell (s.ref.located L).home := by
  obtain ⟨width, isSum, ref⟩ := s
  cases hs
  cases ref <;> rfl

theorem code_word (L : Layout) (hs : s.width = .word) (n : Int64) :
    s.code n = stepWord s.isSum (n &&& 0xffff) s.ref.cell (s.ref.located L).home := by
  obtain ⟨width, isSum, ref⟩ := s
  cases hs
  cases ref <;> rfl

/-- The code of a step changes what the step refers to by the constant, in the width of the step. -/
theorem steps_code (h : s.code n = some code) :
    (s.ref.located L).StepsBy L s.width (signed s.isSum n.toInt) code.lines := by
  intro c
  cases hs : s.width with
  | byte =>
    rw [code_byte L hs] at h
    obtain ⟨d, hd, hstepped⟩ := steps_stepByte (s.ref.liesAt_cell L) h c
    refine ⟨d, hd, hstepped.congr fun e he => ?_⟩
    cases e with
    | byte b => rw [Entry.plus, Entry.plus, signed_congr (ofInt_and_ff n)]
    | word w => cases he
  | word =>
    rw [code_word L hs] at h
    obtain ⟨d, hd, hstepped⟩ := steps_stepWord (s.ref.liesAt_cell L) h c
    refine ⟨d, hd, hstepped.congr fun e he => ?_⟩
    cases e with
    | byte b => cases he
    | word w => rw [Entry.plus, Entry.plus, signed_congr (ofInt_and_ffff n)]

theorem isSome_code (L : Layout) (s : Step) (n : Int64) (c : Cpu) :
    (s.code n).isSome = ((s.ref.located L).held? c s.width).isSome := by
  cases hs : s.width with
  | byte => rw [code_byte L hs, isSome_stepByte, Located.isSome_byte?]
  | word => rw [code_word L hs, isSome_stepWord, Located.isSome_word?]

end Step

/-! ### The idiom -/

/-- The parts of a step, with the constant first or second. -/
theorem of_step?_eq_some {x y o z : Instr} {s : Step} (h : step? x y o z = some s) :
    ∃ location constant n,
      (location = x ∧ constant = y ∨ location = y ∧ constant = x ∧ s.isSum = true) ∧
      operands x y = (location, constant) ∧ constant.int? = some n ∧
      constWidth? constant.op = some s.width ∧ pushWidth? location.op = some s.width ∧
      sumWidth? o.op = some (s.width, s.isSum) ∧ popWidth? z.op = some s.width ∧
      location.ref? = some s.ref ∧ z.ref? = some s.ref := by
  simp only [step?, Option.bind_eq_bind, Option.bind_eq_some_iff, Option.ite_none_right_eq_some,
    Bool.and_eq_true, decide_eq_true_eq, Option.some.injEq] at h
  obtain ⟨width, hpush, ⟨sumWidth, isSum⟩, hsum, ref, href,
    ⟨⟨⟨⟨⟨hint, hconst⟩, rfl⟩, hpop⟩, horder⟩, hsame⟩, rfl⟩ := h
  obtain ⟨n, hn⟩ := Option.isSome_iff_exists.mp hint
  obtain ⟨r, hr, hz⟩ := Instr.exists_ref_of_sameRef hsame
  cases href.symm.trans hr
  refine ⟨(operands x y).1, (operands x y).2, n, ?_, rfl, hn, hconst, hpush, hsum, hpop, href, hz⟩
  cases hx : constWidth? x.op with
  | none => exact .inl (by simp [operands, hx])
  | some width => exact .inr (by simpa [operands, hx] using horder)

/-- Additions and subtractions, by the tables of the idiom. -/
theorem of_sumWidth?_eq_some {o : Coded Opcode} {width : Width} {isSum : Bool}
    (h : sumWidth? o = some (width, isSum)) (n : Int) :
    ∃ op, o = .known op ∧ op.sum? n = some (width, signed isSum n) ∧
      (isSum = true → op ∈ [Opcode.addUB, .addB, .addUW, .addW]) := by
  unfold sumWidth? at h
  split at h
  case h_9 => cases h
  all_goals
    cases h
    exact ⟨_, rfl, rfl, by simp⟩

/-- Code for a step, if the value can be where it is. -/
theorem offer?_addConst {w : List Instr} (happlies : addConst.Applies w) {x y o z : Instr}
    (hw : w.take 4 = [x, y, o, z]) {s : Step} (hs : step? x y o z = some s) {n : Int64}
    (hn : (operands x y).2.int? = some n) (pool : FloatPool) :
    addConst.offer? w pool =
      (s.code n).map fun code => ⟨"same location add const", code, 4, false⟩ := by
  have hrun : (do
      let n ← (operands x y).2.integer
      .ofOption ((step? x y o z).bind (·.code n)) : Reading Code).run = .ok (s.code n) := by
    rw [Instr.integer, hn, hs]
    rfl
  rw [offer?, if_pos happlies]
  change Lowering.offer? _ _ (w.take 4) pool = _
  rw [hw]
  exact Lowering.offer?_of_eq_ok hrun

end Idiom

open Idiom in
/-- Where the idiom matches, a value is pushed from a place and popped into it again, stepped by a
constant in between, which comes first only if it is added. There is code unless the place cannot
hold a value of that width. In a processor of any state the code leaves the value plus or minus
the constant in its place, modulo the width, and changes no other memory off the hardware stack and
X only as a part of the place. -/
theorem addConst_steps {w : List Instr} (h : addConst.Applies w) (L : Layout) :
    ∃ x y o z location constant n op ref width δ, w.take 4 = [x, y, o, z] ∧
      (location = x ∧ constant = y ∨
        location = y ∧ constant = x ∧ op ∈ [Opcode.addUB, .addB, .addUW, .addW]) ∧
      constWidth? constant.op = some width ∧ constant.int? = some n ∧
      pushWidth? location.op = some width ∧ location.ref? = some ref ∧
      o.op = .known op ∧ op.sum? n.toInt = some (width, δ) ∧
      popWidth? z.op = some width ∧ z.ref? = some ref ∧
      ∀ pool c, ((addConst.offer? w pool).isSome ↔ ((ref.located L).held? c width).isSome) ∧
        ∀ f ∈ addConst.offer? w pool, ∃ d, L.run f.code.lines c = some d ∧
          (ref.located L).Stepped width δ c d := by
  obtain ⟨x, y, o, z, hw⟩ := List.length_eq_four.mp (List.length_take_of_le h.1)
  have hpredicate : addConst.predicate.map (· (w.take 4)) = some (.ok true) := h.2
  rw [hw] at hpredicate
  obtain ⟨s, hs⟩ := Option.isSome_iff_exists.mp (Except.ok.inj (Option.some.inj hpredicate))
  obtain ⟨location, constant, n, horder, hoperands, hn, hconst, hpush, hsum, hpop, href, href'⟩ :=
    of_step?_eq_some hs
  obtain ⟨op, hop, hδ, hadds⟩ := of_sumWidth?_eq_some hsum n.toInt
  have hoffer := offer?_addConst h hw hs (by rw [hoperands, hn])
  refine ⟨x, y, o, z, location, constant, n, op, s.ref, s.width, Idiom.signed s.isSum n.toInt,
    hw, horder.imp_right (And.imp_right (And.imp_right hadds)), hconst, hn, hpush, href, hop, hδ,
    hpop, href', fun pool c => ⟨?_, fun f hf => ?_⟩⟩
  · rw [hoffer, Option.isSome_map, s.isSome_code L n c]
  · rw [hoffer] at hf
    obtain ⟨code, hcode, rfl⟩ := Option.map_eq_some_iff.mp hf
    exact s.steps_code hcode c

namespace Lowered

def layout : Layout := ⟨fun _ => 0x2000, fun _ c => c⟩

def cpu : Cpu := ⟨1, 0, 7, 0xff, true, false, false, false, fun _ => 5⟩

/-- The word in A and X is lowered by two: `AX := -2 + AX`. -/
def window : List Instr :=
  [{ op := .known .pushWord, arg := some (.int (-2)) }, { op := .known .pushVarWord, sym := "AX" },
    { op := .known .addUW }, { op := .known .popVarWord, sym := "AX" }]

end Lowered

open Lowered Idiom in
theorem addConst_steps_lowered : ∃ f d, addConst.offer? window .empty = some f ∧
    layout.run f.code.lines cpu = some d ∧ Word.ofBytes d.x d.a = 0xffff ∧
    ∀ p, p.high ≠ 0x01 → d.mem p = 5 := by
  obtain ⟨x, y, o, z, location, constant, n, op, ref, width, δ, hw, horder, -, hn, -, href, hop, hδ,
    -, -, hsteps⟩ := addConst_steps (show addConst.Applies window by decide) layout
  cases hw
  rcases horder with ⟨rfl, -⟩ | ⟨rfl, rfl, -⟩
  · cases href
  · cases href
    cases hn
    cases hop
    cases hδ
    obtain ⟨haccepts, hruns⟩ := hsteps .empty cpu
    obtain ⟨f, hf⟩ := Option.isSome_iff_exists.mp (haccepts.mpr rfl)
    obtain ⟨d, hd, ⟨⟨e, he, hplus⟩, hkeeps⟩⟩ := hruns f hf
    cases he
    have hword : Word.ofBytes d.x d.a = Word.ofBytes 0 1 + .ofInt 16 (-2) :=
      Entry.word.inj (Option.some.inj hplus)
    refine ⟨f, d, hf, hd, hword.trans (by decide), fun p hp => hkeeps.mem p hp ?_⟩
    exact List.not_mem_nil

end Stack6502
