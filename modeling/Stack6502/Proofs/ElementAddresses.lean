import Stack6502.Proofs.ByteAssignments

/-!
# Addresses of elements

Patterns name an element at a constant index by an expression, with the offset counted in 64 bits.
The instructions on their own take the index from the evaluation stack, where it is a byte, and
double it there for words. So both mean the same element as long as the offset is in a byte.
-/
namespace Stack6502

open Asm Layout

/-! ### Addresses used by lines -/

def Place.symbol? : Place → Option Text
  | .name symbol => some symbol
  | .address _ => none
  | .plus p _ => p.symbol?

def Operand.symbol? : Operand → Option Text
  | .direct p | .byX p | .byY p => p.symbol?
  | _ => Option.none

namespace Layout

variable (L : Layout) (sym : Text)

/-- The address that a line is about to use, if its operand names the symbol. -/
def accessed (c : Cpu) : Line → List Word
  | .instr _ o => if o.symbol? = some sym then (L.address? c.x c.y o).toList else []
  | _ => []

/-- The addresses with `skip` labels to pass first. -/
def accessesFrom : (skip : Nat) → List Line → Cpu → List Word
  | _, [], _ => []
  | k + 1, l :: ls, c => accessesFrom (if l.isHere then k else k + 1) ls c
  | 0, l :: ls, c =>
    L.accessed sym c l ++ ((L.advance c l).map fun f => accessesFrom f.skip ls f.cpu).getD []

/-- The addresses that lines use through operands that name the symbol, in order. -/
def accesses (ls : List Line) (c : Cpu) : List Word := L.accessesFrom sym 0 ls c

variable {L sym} {c d : Cpu} {ls ms : List Line}

@[simp] theorem accesses_nil : L.accesses sym [] c = [] := rfl

@[simp] theorem accessesFrom_zero : L.accessesFrom sym 0 ls c = L.accesses sym ls c := rfl

@[simp] theorem accesses_instr (m : Mnemonic) (o : Operand) :
    L.accesses sym (.instr m o :: ls) c = L.accessed sym c (.instr m o) ++
      ((L.step c o m).map fun f => L.accessesFrom sym f.skip ls f.cpu).getD [] := rfl

@[simp] theorem accessed_low (m : Mnemonic) (k : Int64) :
    L.accessed sym c (.instr m (low k)) = [] := rfl

@[simp] theorem accessed_high (m : Mnemonic) (k : Int64) :
    L.accessed sym c (.instr m (high k)) = [] := rfl

@[simp] theorem accessed_imm (m : Mnemonic) (n : UInt8) :
    L.accessed sym c (.instr m (.imm n)) = [] := rfl

@[simp] theorem accessed_none (m : Mnemonic) : L.accessed sym c (.instr m .none) = [] := rfl

@[simp] theorem accessed_accumulator (m : Mnemonic) :
    L.accessed sym c (.instr m .accumulator) = [] := rfl

@[simp] theorem accessed_byY_name (m : Mnemonic) :
    L.accessed sym c (.instr m (.byY (.name sym))) = [.ofInt 16 (L.address sym + c.y.toNat)] := by
  simp [accessed, Operand.symbol?, Place.symbol?, address?_byY, value]

@[simp] theorem accessed_byY_plus (m : Mnemonic) (k : Int64) :
    L.accessed sym c (.instr m (.byY (.plus (.name sym) k))) =
      [.ofInt 16 (L.address sym + k.toInt + c.y.toNat)] := by
  simp [accessed, Operand.symbol?, Place.symbol?, address?_byY, value]

theorem accessesFrom_append {k : Nat} (h : L.resume k ls c = some d) :
    L.accessesFrom sym k (ls ++ ms) c = L.accessesFrom sym k ls c ++ L.accesses sym ms d := by
  induction ls generalizing k c with
  | nil =>
    cases k with
    | zero =>
      cases h
      rfl
    | succ k => cases h
  | cons l ls ih =>
    cases k with
    | zero =>
      obtain ⟨f, hf, hd⟩ := Option.bind_eq_some_iff.mp h
      simp only [List.cons_append, accessesFrom, hf, Option.map_some, Option.getD_some, ih hd,
        List.append_assoc]
    | succ k => exact ih h

theorem accesses_append (h : L.run ls c = some d) :
    L.accesses sym (ls ++ ms) c = L.accesses sym ls c ++ L.accesses sym ms d :=
  accessesFrom_append h

end Layout

/-! ### Elements at constant indices -/

def Opcode.elementWidth? : Opcode → Option Width
  | .readIndexedVarByte | .writeIndexedVarByte => some .byte
  | .readIndexedVarWord | .writeIndexedVarWord => some .word
  | _ => none

def Instr.elementWidth? (x : Instr) : Option Width :=
  match x.op with
  | .known op => op.elementWidth?
  | .stray _ => none

theorem Instr.elementWidth?_eq {x : Instr} {op : Opcode} (h : x.op = .known op) :
    x.elementWidth? = op.elementWidth? := by
  rw [elementWidth?, h]

def Width.size : Width → Int64
  | .byte => 1
  | .word => 2

structure Element where
  array : Text
  index : Int64
  width : Width
  deriving DecidableEq

namespace Element

def places (e : Element) : List Place :=
  let p := Place.elem e.array e.index e.width.size
  match e.width with
  | .byte => [p]
  | .word => [p, .plus p 1]

def offset (e : Element) : Int := e.index.toInt * e.width.size.toInt

end Element

/-- The element that `x` reads or writes after the constant index of `i`. -/
def element? (i x : Instr) : Option Element := do
  let width ← x.elementWidth?
  let n ← i.int?
  if i.is .pushByte then some ⟨x.sym, n, width⟩ else none

def elements : List Instr → List Element
  | i :: x :: rest => (element? i x).toList ++ elements (x :: rest)
  | _ => []

theorem element?_eq_some_iff {i x : Instr} {e : Element} : element? i x = some e ↔
    i.op = .known .pushByte ∧ i.int? = some e.index ∧ x.elementWidth? = some e.width ∧
      x.sym = e.array := by
  obtain ⟨array, n, width⟩ := e
  simp only [element?, Option.bind_eq_bind, Option.bind_eq_some_iff, Option.ite_none_right_eq_some,
    Instr.is, beq_iff_eq, Option.some_inj, Element.mk.injEq]
  constructor
  · rintro ⟨width, hwidth, n, hn, hi, rfl, rfl, rfl⟩
    exact ⟨hi, hn, hwidth, rfl⟩
  · rintro ⟨hi, hn, hwidth, rfl⟩
    exact ⟨width, hwidth, n, hn, hi, rfl, rfl, rfl⟩

theorem elements_append {xs ys : List Instr} (h : ys.head?.bind Instr.elementWidth? = none) :
    elements (xs ++ ys) = elements xs ++ elements ys := by
  induction xs with
  | nil => rfl
  | cons i xs ih =>
    cases xs with
    | cons x xs =>
      rw [List.cons_append, List.cons_append, elements, elements, ← List.cons_append, ih,
        List.append_assoc]
    | nil =>
      -- Here the last of `xs` meets the first of `ys`.
      cases ys with
      | nil => rfl
      | cons y ys =>
        have hy : y.elementWidth? = none := h
        simp [elements, element?, hy]

theorem Matched.head_elementWidth? {ops : List Opcode} {w : List Instr} (h : Matched ops w) :
    w.head?.bind Instr.elementWidth? = ops.head?.bind Opcode.elementWidth? := by
  cases h with
  | nil => rfl
  | cons hx => exact Instr.elementWidth?_eq hx.1

def Opcode.IsElement (a b : Opcode) : Prop := a = .pushByte ∧ b.elementWidth?.isSome

instance (a b : Opcode) : Decidable (a.IsElement b) := inferInstanceAs (Decidable (_ ∧ _))

theorem Matched.not_mem_elements {ops : List Opcode} {w : List Instr} (h : Matched ops w)
    (hops : ops.IsChain fun a b => ¬ a.IsElement b) (e : Element) : e ∉ elements w := by
  induction h with
  | nil => exact List.not_mem_nil
  | @cons a i ops w hi hw ih =>
    cases hw with
    | nil => exact List.not_mem_nil
    | @cons b x ops w hx hw =>
      obtain ⟨hab, hrest⟩ := List.isChain_cons_cons.mp hops
      rw [elements, List.mem_append, Option.mem_toList]
      rintro (he | he)
      · obtain ⟨hpush, -, hwidth, -⟩ := element?_eq_some_iff.mp he
        rw [Instr.elementWidth?_eq hx.1] at hwidth
        exact hab ⟨Coded.known.inj (hi.1.symm.trans hpush), Option.isSome_of_eq_some hwidth⟩
      · exact ih hrest he

theorem MatchedEither.not_mem_elements {seq alt : List Opcode} {w : List Instr}
    (h : MatchedEither seq alt w) (hseq : seq.IsChain fun a b => ¬ a.IsElement b)
    (halt : alt.IsChain fun a b => ¬ a.IsElement b) (e : Element) : e ∉ elements w := by
  rcases h with h | ⟨-, h⟩
  · exact h.not_mem_elements hseq e
  · exact h.not_mem_elements halt e

section

variable {i x : Instr} {width : Width} {n : Int64} {e : Element}
  (hx : x.elementWidth? = some width) (hn : i.int? = some n)

include hx hn

theorem eq_of_element? (he : element? i x = some e) : e = ⟨x.sym, n, width⟩ := by
  obtain ⟨-, hindex, hwidth, hsym⟩ := element?_eq_some_iff.mp he
  cases hindex.symm.trans hn
  cases hwidth.symm.trans hx
  rw [hsym]

theorem eq_of_mem_elements (he : e ∈ elements [i, x]) : e = ⟨x.sym, n, width⟩ :=
  eq_of_element? hx hn (by simpa [elements] using he)

end

/-! ### Elements addressed at run time -/

/-- The offset of an element as the instructions on their own find it, in a byte. -/
def Width.offset (i : Byte) : Width → Byte
  | .byte => i
  | .word => wordOffset i

section

variable {L : Layout} {c : Cpu} {σ : Operands} {i : Byte} {st : List Entry} (sym : Text)
  (hc : Represents c σ) (hst : σ.stack = .byte i :: st)

include hc hst

theorem accesses_readByte :
    L.accesses sym [ldy (low 1), lda (.byY (.name sym)), sta (low 1)] c =
      Site.words ⟨.byte, L.address sym + i.toNat⟩ := by
  have htop : c.mem (lowSlot (c.x.toNat + 1)) = i := hc.top hst
  simp [htop, value, Site.words, Site.addresses]

theorem accesses_writeByte :
    L.accesses sym [inx, ldy (low 0), inx, lda (low 0), sta (.byY (.name sym))] c =
      Site.words ⟨.byte, L.address sym + i.toNat⟩ := by
  have htop : c.mem (lowSlot (c.x.toNat + 1)) = i := hc.top hst
  have hinx := Nat.mod_eq_of_lt (hc.slot_lt hst)
  simp [htop, hinx, value, Site.words, Site.addresses]

theorem accesses_readWord :
    L.accesses sym [lda (low 1), asl acc, tay, lda (.byY (.name sym)), sta (low 1),
      lda (.byY (.plus (.name sym) 1)), sta (high 1)] c =
      Site.words ⟨.word, L.address sym + (wordOffset i).toNat⟩ := by
  have htop : c.mem (lowSlot (c.x.toNat + 1)) = i := hc.top hst
  have hasl (b : Bool) : (Shift.asl b i).2 = wordOffset i := rfl
  simp [htop, hasl, value, Site.words, Site.addresses, Int.add_right_comm _ 1]

theorem accesses_writeWord :
    L.accesses sym [inx, lda (low 0), asl acc, tay, inx, lda (low 0), sta (.byY (.name sym)),
      lda (high 0), sta (.byY (.plus (.name sym) 1))] c =
      Site.words ⟨.word, L.address sym + (wordOffset i).toNat⟩ := by
  have htop : c.mem (lowSlot (c.x.toNat + 1)) = i := hc.top hst
  have hinx := Nat.mod_eq_of_lt (hc.slot_lt hst)
  have hasl (b : Bool) : (Shift.asl b i).2 = wordOffset i := rfl
  simp [htop, hinx, hasl, value, Site.words, Site.addresses, Int.add_right_comm _ 1]

end

/-- The code of an instruction that works on an element, with the index on top of the stack. -/
theorem exists_standalone_accesses {x : Instr} {width : Width} (hx : x.elementWidth? = some width) :
    ∃ code, (∀ scope s, x.standalone? scope s = some (code, s)) ∧
      ∀ {L : Layout} {c : Cpu} {σ : Operands} {i : Byte} {st : List Entry}, Represents c σ →
        σ.stack = .byte i :: st → L.accesses x.sym code.lines c =
          Site.words ⟨width, L.address x.sym + (width.offset i).toNat⟩ := by
  cases hop : x.op with
  | stray n => simp [Instr.elementWidth?, hop] at hx
  | known op =>
    simp only [Instr.elementWidth?, hop] at hx
    unfold Opcode.elementWidth? at hx
    split at hx
    all_goals cases hx
    · exact ⟨_, fun scope s => by simp [Instr.standalone?, hop]; rfl, accesses_readByte x.sym⟩
    · exact ⟨_, fun scope s => by simp [Instr.standalone?, hop]; rfl, accesses_writeByte x.sym⟩
    · exact ⟨_, fun scope s => by simp [Instr.standalone?, hop]; rfl, accesses_readWord x.sym⟩
    · exact ⟨_, fun scope s => by simp [Instr.standalone?, hop]; rfl, accesses_writeWord x.sym⟩

theorem toNat_offset (width : Width) (n : Int) :
    ((width.offset (.ofInt 8 n)).toNat : Int) = n * width.size.toInt % 256 := by
  cases width with
  | byte =>
    show ((BitVec.ofInt 8 n).toNat : Int) = n * 1 % 256
    rw [BitVec.toNat_ofInt]
    omega
  | word =>
    show ((wordOffset (.ofInt 8 n)).toNat : Int) = n * 2 % 256
    rw [wordOffset, BitVec.toNat_shiftLeft, Nat.shiftLeft_eq, BitVec.toNat_ofInt]
    omega

/-- The bytes that the instructions on their own use. -/
theorem exists_lines_accesses {i x : Instr} {e : Element} (he : element? i x = some e) :
    ∃ ls, (∀ scope s, standaloneLines scope [i, x] s = some ls) ∧
      ∀ (L : Layout) (c : Cpu), 0 < c.x.toNat → L.accesses e.array ls c =
        Site.words ⟨e.width, L.address e.array + e.offset % 256⟩ := by
  obtain ⟨hi, hn, hwidth, hsym⟩ := element?_eq_some_iff.mp he
  obtain ⟨code, hcode, haccess⟩ := exists_standalone_accesses hwidth
  have hpush (scope : Option Text) (s : Session) : i.standalone? scope s =
      some (Code.each [lda (lowByte e.index), sta (low 0), dex], s) := by
    simp [Instr.standalone?, hi, fallback?, Fallback.pushByte, Fallback.reading, Instr.integer, hn]
    rfl
  refine ⟨[lda (lowByte e.index), sta (low 0), dex] ++ code.lines, fun scope s => ?_,
    fun L c hc => ?_⟩
  · simp [standaloneLines, hpush, hcode, Code.each, Code.lines]
  -- The index is pushed as a byte, whatever is on the stack before it.
  obtain ⟨st, hst⟩ := exists_represents c
  have hroom : st.length < 255 := by
    have hdepth := hst.depth
    simp only at hdepth
    omega
  obtain ⟨d, hd, hrep⟩ := Simulates.pushByte (L := L) e.index hroom c hst
  have hnone : L.accesses x.sym [lda (lowByte e.index), sta (low 0), dex] c = [] := by
    simp [lowByte]
  rw [accesses_append hd, ← hsym, haccess hrep rfl, hnone, toNat_offset]
  rfl

theorem Element.map_value_places (L : Layout) (e : Element) :
    e.places.map (fun p => BitVec.ofInt 16 (L.value p)) =
      Site.words ⟨e.width, L.address e.array + e.offset⟩ := by
  obtain ⟨array, n, width⟩ := e
  have h := ofInt_value_elem L array n width.size
  cases width with
  | byte => simp [places, offset, Site.words, Site.addresses, h]
  | word =>
    simp [places, offset, Site.words, Site.addresses, h, value, BitVec.ofInt_add]

theorem Site.words_eq_iff (width : Width) (a b : Int) :
    Site.words ⟨width, a⟩ = Site.words ⟨width, b⟩ ↔ a % 65536 = b % 65536 := by
  have h : BitVec.ofInt 16 a = BitVec.ofInt 16 b ↔ a % 65536 = b % 65536 := by
    rw [← BitVec.toNat_inj, BitVec.toNat_ofInt, BitVec.toNat_ofInt]
    omega
  cases width with
  | byte => simp [words, addresses, h]
  | word =>
    simp only [words, addresses, List.map_cons, List.map_nil, List.cons.injEq, and_true, h,
      BitVec.ofInt_add, and_iff_left_iff_imp]
    intro hab
    rw [h.mpr hab]

/-! ### Elements named by patterns -/

@[simp] def Line.operand? : Line → Option Operand
  | .instr _ o => some o
  | _ => none

def Code.operands (code : Code) : List Operand := code.lines.filterMap Line.operand?

@[simp] theorem Code.operands_nil : operands [] = [] := rfl

@[simp] theorem Code.operands_cons (group : List Line) (code : Code) :
    operands (group :: code) = group.filterMap Line.operand? ++ operands code := by
  simp [operands, lines]

theorem Code.operands_append (code more : Code) :
    operands (code ++ more) = code.operands ++ more.operands := by
  simp [operands, lines]

def Element.IsNamedIn (e : Element) (code : Code) : Prop := e.places.map .direct ⊆ code.operands

namespace ByteValue

def operands : ByteValue → List Operand
  | .reg _ => []
  | .loc place _ _ => [place]

theorem operands_toA (v : ByteValue) : v.operands ⊆ v.toA.operands := by
  cases v <;> simp [operands, toA]

theorem operands_toReg (v : ByteValue) (r : Reg) : v.operands ⊆ (v.toReg r).operands := by
  cases v with
  | reg r => simp [operands]
  | loc place setup usesY =>
    rw [toReg]
    split
    · simp [operands]
    · cases r <;> simp [operands, loadReg]

theorem operands_toPlace (v : ByteValue) (dest : Operand) :
    v.operands ++ [dest] ⊆ (v.toPlace dest).operands := by
  cases v with
  | reg r => cases r <;> simp [operands, toPlace, storeReg]
  | loc place setup usesY => simp [operands, toPlace]

theorem operands_toIndexed {v : ByteValue} {array : Text} {index : Operand} {home : Home}
    {code : Code} (h : v.toIndexed array index home = some code) : v.operands ⊆ code.operands := by
  rw [toIndexed] at h
  split at h
  · cases h
  · obtain ⟨setup, -, rfl⟩ := Option.map_eq_some_iff.mp h
    rw [Code.operands_append]
    exact List.subset_append_of_subset_left _ v.operands_toA

end ByteValue

namespace WordValue

def operands : WordValue → List Operand
  | .pair _ => []
  | .cell k => [k.lo, k.hi]

theorem operands_moveTo (v d : WordValue) :
    v.operands ++ d.operands ⊆ (v.moveTo d).operands := by
  cases v with
  | pair p =>
    cases d with
    | pair q => simp [operands]
    | cell k => cases p <;> simp [operands, moveTo, storePair]
  | cell c =>
    cases d with
    | pair q => cases q <;> simp [operands, moveTo, loadPair]
    | cell k => simp [operands, moveTo, Code.each]

theorem operands_zeroExtend (v : ByteValue) (d : WordValue) :
    v.operands ++ d.operands ⊆ (zeroExtend v d).operands := by
  cases d with
  | pair p =>
    rw [zeroExtend, Code.operands_append, operands, List.append_nil]
    exact List.subset_append_of_subset_left _ (v.operands_toReg _)
  | cell k =>
    have hlow := List.append_subset.mp (v.operands_toPlace k.lo)
    have hhigh : [k.hi] ⊆ Code.operands [zeroHigh (.cell k)] := by
      simp [zeroHigh]
    rw [zeroExtend, Code.operands_append]
    refine List.append_subset.mpr ⟨List.subset_append_of_subset_left _ hlow.1, ?_⟩
    show [k.lo] ++ [k.hi] ⊆ _
    exact List.append_subset.mpr ⟨List.subset_append_of_subset_left _ hlow.2,
      List.subset_append_of_subset_right _ hhigh⟩

theorem operands_signExtend (v : ByteValue) (d : WordValue) :
    v.operands ++ d.operands ⊆ (signExtend v d).operands := by
  rw [signExtend, Code.operands_append]
  refine List.append_subset.mpr ⟨List.subset_append_of_subset_left _ v.operands_toA, ?_⟩
  apply List.subset_append_of_subset_right
  cases d <;> simp [operands, signed]

end WordValue

theorem lo_mem_operands_inPlace {op : Coded Opcode} {k : Cell} {code : Code}
    (h : inPlace op .byte k .var = some code) : k.lo ∈ code.operands := by
  cases op with
  | stray n => cases h
  | known op =>
    obtain ⟨o, -, ho⟩ := Option.bind_eq_some_iff.mp h
    cases ho
    cases o <;> simp [ByteOp.onLocation]

theorem operands_inPlace {op : Coded Opcode} {k : Cell} {code : Code}
    (h : inPlace op .word k .var = some code) : [k.lo, k.hi] ⊆ code.operands := by
  cases op with
  | stray n => cases h
  | known op =>
    obtain ⟨o, -, ho⟩ := Option.bind_eq_some_iff.mp h
    cases ho
    cases o <;> simp [WordOp.onCell]

namespace Assignment

/-- A source reads the elements that its instructions push. -/
theorem byteSources_elements : ∀ s ∈ byteSources, ∀ xs, MatchedEither s.seq s.alt xs → ∀ v,
    (s.value xs).run = .ok (some v) → ∀ e ∈ elements xs, e.places.map .direct = v.operands := by
  simp only [byteSources, List.forall_mem_cons]
  refine ⟨?_, ?_, ?_, ?_, ?_, ?_, ?_⟩
  case refine_4 =>
    intro xs hmatch v hv e he
    obtain ⟨i, array, rfl, -, harray⟩ := (MatchedEither.plain.mp hmatch).two
    obtain ⟨n, hn, hv⟩ := Reading.of_bind_eq_some hv
    cases hv
    rw [eq_of_mem_elements (Instr.elementWidth?_eq harray.1) (int?_of_integer hn) he]
    rfl
  case refine_7 => simp
  all_goals
    intro xs hmatch v _ e he
    exact absurd he (hmatch.not_mem_elements (by decide) (by decide) e)

/-- The code of a destination reads the byte from its operand and names the elements that are
written. -/
theorem byteDests_elements : ∀ d ∈ byteDests, ∀ ys, MatchedEither d.seq d.alt ys → ∀ v code,
    (d.store v ys).run = .ok (some code) →
    v.operands ⊆ code.operands ∧ ∀ e ∈ elements ys, e.IsNamedIn code := by
  simp only [byteDests, List.forall_mem_cons]
  refine ⟨?_, ?_, ?_, ?_, ?_, ?_⟩
  · intro ys hmatch v code hcode
    refine ⟨?_, fun e he => absurd he (hmatch.not_mem_elements (by decide) (by decide) e)⟩
    obtain ⟨x, rfl, -⟩ := (MatchedEither.plain.mp hmatch).one
    cases hname : Home.ofName x.sym with
    | reg r =>
      simp only [hname] at hcode
      cases hcode
      exact v.operands_toReg r
    | pair p =>
      simp only [hname] at hcode
      cases hcode
    | var | mem =>
      simp only [hname] at hcode
      cases hcode
      exact (List.append_subset.mp (v.operands_toPlace _)).1
  · intro ys hmatch v code hcode
    refine ⟨?_, fun e he => absurd he (hmatch.not_mem_elements (by decide) (by decide) e)⟩
    obtain ⟨x, rfl, -⟩ := (MatchedEither.plain.mp hmatch).one
    obtain ⟨n, -, hcode⟩ := Reading.of_bind_eq_some hcode
    cases hcode
    exact (List.append_subset.mp (v.operands_toPlace _)).1
  · intro ys hmatch v code hcode
    obtain ⟨i, array, rfl, -, harray⟩ := (MatchedEither.plain.mp hmatch).two
    obtain ⟨n, hn, hcode⟩ := Reading.of_bind_eq_some hcode
    cases hcode
    obtain ⟨hread, hwrite⟩ :=
      List.append_subset.mp (v.operands_toPlace (.direct (.elem array.sym n 1)))
    refine ⟨hread, fun e he => ?_⟩
    rw [eq_of_mem_elements (Instr.elementWidth?_eq harray.1) (int?_of_integer hn) he]
    exact hwrite
  · intro ys hmatch v code hcode
    refine ⟨?_, fun e he => absurd he (hmatch.not_mem_elements (by decide) (by decide) e)⟩
    obtain ⟨i, array, rfl, -⟩ := (MatchedEither.plain.mp hmatch).two
    exact ByteValue.operands_toIndexed (Except.ok.inj hcode)
  · intro ys hmatch v code hcode
    refine ⟨?_, fun e he => absurd he (hmatch.not_mem_elements (by decide) (by decide) e)⟩
    rcases hmatch with hmatch | ⟨-, hmatch⟩
    all_goals
      obtain ⟨i, array, rfl, -⟩ := hmatch.two
      obtain ⟨n, -, hcode⟩ := Reading.of_bind_eq_some hcode
      exact ByteValue.operands_toIndexed (Except.ok.inj hcode)
  · simp

section

variable {w : List Instr} {v : ByteValue} {r : Reading ByteValue} {d : WordValue} {code : Code}

theorem operands_zeroExtended (h : (zeroExtended r d).run = .ok (some code)) :
    ∃ v, r.run = .ok (some v) ∧ v.operands ++ d.operands ⊆ code.operands := by
  obtain ⟨v, hv, hcode⟩ := Reading.of_bind_eq_some h
  cases hcode
  exact ⟨v, hv, WordValue.operands_zeroExtend v d⟩

theorem operands_signExtended (h : (signExtended r d).run = .ok (some code)) :
    ∃ v, r.run = .ok (some v) ∧ v.operands ++ d.operands ⊆ code.operands := by
  obtain ⟨v, hv, hcode⟩ := Reading.of_bind_eq_some h
  cases hcode
  exact ⟨v, hv, WordValue.operands_signExtend v d⟩

/-- An element of bytes that is widened afterwards. -/
theorem operands_elemByte {i array y : Instr} {op : Opcode}
    (harray : array.IsWhole .readIndexedVarByte) (hy : y.IsWhole op)
    (hop : op.elementWidth? = none) (hv : (elemByte i array).run = .ok (some v)) :
    ∀ e ∈ elements [i, array, y], e.places.map .direct = v.operands := by
  intro e he
  obtain ⟨n, hn, hv⟩ := Reading.of_bind_eq_some hv
  cases hv
  have hrest : element? array y = none := by simp [element?, Instr.elementWidth?_eq hy.1, hop]
  have he : e ∈ elements [i, array] := by simpa [elements, hrest] using he
  rw [eq_of_mem_elements (Instr.elementWidth?_eq harray.1) (int?_of_integer hn) he]
  rfl

end

/-- The code of a source writes the word to its operands and names the elements that are read. -/
theorem wordSources_elements : ∀ s ∈ wordSources, ∀ xs, MatchedEither s.seq s.alt xs → ∀ d code,
    (s.store xs d).run = .ok (some code) →
    d.operands ⊆ code.operands ∧ ∀ e ∈ elements xs, e.IsNamedIn code := by
  simp only [wordSources, List.forall_mem_cons]
  refine ⟨?_, ?_, ?_, ?_, ?_, ?_, ?_, ?_, ?_, ?_, ?_, ?_⟩
  · intro xs hmatch d code hcode
    refine ⟨?_, fun e he => absurd he (hmatch.not_mem_elements (by decide) (by decide) e)⟩
    obtain ⟨x, rfl, -⟩ := (MatchedEither.plain.mp hmatch).one
    obtain ⟨n, -, hcode⟩ := Reading.of_bind_eq_some hcode
    cases hcode
    exact (List.append_subset.mp (WordValue.operands_moveTo _ d)).2
  · intro xs hmatch d code hcode
    refine ⟨?_, fun e he => absurd he (hmatch.not_mem_elements (by decide) (by decide) e)⟩
    obtain ⟨x, rfl, -⟩ := (MatchedEither.plain.mp hmatch).one
    obtain ⟨v, -, rfl⟩ := Option.map_eq_some_iff.mp (Except.ok.inj hcode)
    exact (List.append_subset.mp (v.operands_moveTo d)).2
  · intro xs hmatch d code hcode
    refine ⟨?_, fun e he => absurd he (hmatch.not_mem_elements (by decide) (by decide) e)⟩
    rcases hmatch with hmatch | ⟨-, hmatch⟩
    all_goals
      obtain ⟨x, rfl, -⟩ := hmatch.one
      obtain ⟨n, -, hcode⟩ := Reading.of_bind_eq_some hcode
      cases hcode
      exact (List.append_subset.mp (WordValue.operands_moveTo _ d)).2
  · intro xs hmatch d code hcode
    obtain ⟨i, array, rfl, -, harray⟩ := (MatchedEither.plain.mp hmatch).two
    obtain ⟨n, hn, hcode⟩ := Reading.of_bind_eq_some hcode
    cases hcode
    obtain ⟨hread, hwrite⟩ :=
      List.append_subset.mp (WordValue.operands_moveTo (.cell (.element array.sym n)) d)
    refine ⟨hwrite, fun e he => ?_⟩
    rw [eq_of_mem_elements (Instr.elementWidth?_eq harray.1) (int?_of_integer hn) he]
    exact hread
  case refine_5 | refine_6 | refine_7 =>
    intro xs hmatch d code hcode
    refine ⟨?_, fun e he => absurd he (hmatch.not_mem_elements (by decide) (by decide) e)⟩
    obtain ⟨x, y, rfl, -⟩ := (MatchedEither.plain.mp hmatch).two
    obtain ⟨v, -, hsub⟩ := operands_zeroExtended hcode
    exact (List.append_subset.mp hsub).2
  case refine_8 =>
    intro xs hmatch d code hcode
    obtain ⟨i, array, y, rfl, -, harray, hy⟩ := (MatchedEither.plain.mp hmatch).three
    obtain ⟨v, hv, hsub⟩ := operands_zeroExtended hcode
    obtain ⟨hread, hwrite⟩ := List.append_subset.mp hsub
    refine ⟨hwrite, fun e he => ?_⟩
    rwa [Element.IsNamedIn, operands_elemByte harray hy rfl hv e he]
  case refine_9 | refine_10 =>
    intro xs hmatch d code hcode
    refine ⟨?_, fun e he => absurd he (hmatch.not_mem_elements (by decide) (by decide) e)⟩
    obtain ⟨x, y, rfl, -⟩ := (MatchedEither.plain.mp hmatch).two
    obtain ⟨v, -, hsub⟩ := operands_signExtended hcode
    exact (List.append_subset.mp hsub).2
  case refine_11 =>
    intro xs hmatch d code hcode
    obtain ⟨i, array, y, rfl, -, harray, hy⟩ := (MatchedEither.plain.mp hmatch).three
    obtain ⟨v, hv, hsub⟩ := operands_signExtended hcode
    obtain ⟨hread, hwrite⟩ := List.append_subset.mp hsub
    refine ⟨hwrite, fun e he => ?_⟩
    rwa [Element.IsNamedIn, operands_elemByte harray hy rfl hv e he]
  case refine_12 => simp

/-- A destination is the element that its instructions pop. -/
theorem wordDests_elements : ∀ d ∈ wordDests, ∀ ys, Matched d.seq ys → ∀ place,
    (d.place ys).run = .ok (some place) →
    ∀ e ∈ elements ys, e.places.map .direct = place.operands := by
  simp only [wordDests, List.forall_mem_cons]
  refine ⟨?_, ?_, ?_, ?_⟩
  case refine_3 =>
    intro ys hmatch place hplace e he
    obtain ⟨i, array, rfl, -, harray⟩ := hmatch.two
    obtain ⟨n, hn, hplace⟩ := Reading.of_bind_eq_some hplace
    cases hplace
    rw [eq_of_mem_elements (Instr.elementWidth?_eq harray.1) (int?_of_integer hn) he]
    rfl
  case refine_4 => simp
  all_goals
    intro ys hmatch place _ e he
    exact absurd he (hmatch.not_mem_elements (by decide) e)

/-- The code of a rule for matching instructions names all elements at constant indices. -/
def NamesElements (r : Rule) : Prop :=
  ∀ lower w pool code, r.lowering = some lower → MatchedEither r.seq r.alt w →
    (lower w pool).1 = .ok (some code) → ∀ e ∈ elements w, e.IsNamedIn code

theorem byteRule_namesElements {d : ByteDest} (hd : d ∈ byteDests) {s : ByteSource}
    (hs : s ∈ byteSources) : NamesElements (byteRule d s) := by
  have hlen : ∀ s ∈ byteSources, s.alt = [] ∨ s.alt.length = s.seq.length := by decide
  have hheads : ∀ d ∈ byteDests, d.seq.head?.bind Opcode.elementWidth? = none ∧
      d.alt.head?.bind Opcode.elementWidth? = none := by decide
  rintro _ w pool code ⟨⟩ hmatch hcode e he
  obtain ⟨v, hv, hstore⟩ := Reading.of_bind_eq_some hcode
  obtain ⟨hsource, hdest⟩ := MatchedEither.split (hlen s hs) hmatch
  obtain ⟨hread, hwrite⟩ := byteDests_elements d hd _ hdest v code hstore
  have hhead : (w.drop s.seq.length).head?.bind Instr.elementWidth? = none := by
    rcases hdest with h | ⟨-, h⟩
    · rw [h.head_elementWidth?, (hheads d hd).1]
    · rw [h.head_elementWidth?, (hheads d hd).2]
  rw [← List.take_append_drop s.seq.length w, elements_append hhead] at he
  rcases List.mem_append.mp he with he | he
  · rw [Element.IsNamedIn, byteSources_elements s hs _ hsource v hv e he]
    exact hread
  · exact hwrite e he

theorem wordRule_namesElements {d : WordDest} (hd : d ∈ wordDests) {s : WordSource}
    (hs : s ∈ wordSources) : NamesElements (wordRule d s) := by
  have hlen : ∀ s ∈ wordSources, s.alt = [] ∨ s.alt.length = s.seq.length := by decide
  have hheads : ∀ d ∈ wordDests, d.seq.head?.bind Opcode.elementWidth? = none := by decide
  rintro _ w pool code ⟨⟩ hmatch hcode e he
  obtain ⟨place, hplace, hstore⟩ := Reading.of_bind_eq_some hcode
  obtain ⟨hsource, hdest⟩ := MatchedEither.split (hlen s hs) hmatch
  rw [MatchedEither.plain] at hdest
  obtain ⟨hwrite, hread⟩ := wordSources_elements s hs _ hsource place code hstore
  have hhead : (w.drop s.seq.length).head?.bind Instr.elementWidth? = none := by
    rw [hdest.head_elementWidth?, hheads d hd]
  rw [← List.take_append_drop s.seq.length w, elements_append hhead] at he
  rcases List.mem_append.mp he with he | he
  · exact hread e he
  · rw [Element.IsNamedIn, wordDests_elements d hd _ hdest place hplace e he]
    exact hwrite

/-- Floats are of another width. -/
theorem floatRule_namesElements {d : FloatDest} (hd : d ∈ floatDests) {s : FloatSource}
    (hs : s ∈ floatSources) : NamesElements (floatRule d s) := by
  have hops : ∀ d ∈ floatDests, ∀ s ∈ floatSources,
      (s.seq ++ d.seq).IsChain fun a b => ¬ a.IsElement b := by decide
  intro _ w pool code _ hmatch _ e he
  exact absurd he ((MatchedEither.plain.mp hmatch).not_mem_elements (hops d hd s hs) e)

theorem rules_nameElements : ∀ r ∈ rules, NamesElements r := by
  intro r hr
  simp only [rules, List.mem_append, List.mem_flatMap, List.mem_map] at hr
  rcases hr with (⟨d, hd, s, hs, rfl⟩ | ⟨d, hd, s, hs, rfl⟩) | ⟨d, hd, s, hs, rfl⟩
  · exact byteRule_namesElements hd hs
  · exact wordRule_namesElements hd hs
  · exact floatRule_namesElements hd hs

theorem isNamedIn_of_offer? {r : Rule} (hr : r ∈ rules) {w : List Instr} {pool : FloatPool}
    {f : Fragment} (hw : ∀ x ∈ w, x.isComplete) (h : r.offer? w pool = some f) :
    ∀ e ∈ elements (w.take r.size), e.IsNamedIn f.code := by
  obtain ⟨happlies, hoffer⟩ := Option.ite_none_right_eq_some.mp h
  obtain ⟨lower, code, hlower, hcode, rfl⟩ := Lowering.of_offer?_eq_some hoffer
  exact rules_nameElements r hr lower _ pool code hlower
    (happlies.matchedEither (rules_isWellFormed r hr) hw) hcode

end Assignment

namespace Idiom

theorem int?_of_sameArg {i j : Instr} {n : Int64} (h : sameArg i j) (hn : i.int? = some n) :
    j.int? = some n := by
  obtain ⟨v, hv, hint⟩ := Option.bind_eq_some_iff.mp hn
  cases v with
  | float x => cases hint
  | int m =>
    cases hint
    cases hj : j.arg with
    | none => simp [sameArg, hv, hj] at h
    | some v =>
      cases v with
      | float x => simp [sameArg, hv, hj, Value.same] at h
      | int k =>
        have hk : n = k := by simpa [sameArg, hv, hj, Value.same] using h
        rw [Instr.int?, hj, hk]
        rfl

theorem of_elementWidth?_eq_some {a b : Coded Opcode} {width : Width}
    (h : elementWidth? a b = some width) :
    ∃ op op', a = .known op ∧ b = .known op' ∧ op ≠ .pushByte ∧
      op.elementWidth? = some width ∧ op'.elementWidth? = some width := by
  unfold elementWidth? at h
  split at h
  case h_3 => cases h
  all_goals
    cases h
    exact ⟨_, _, rfl, rfl, by decide, rfl, rfl⟩

/-- Instructions for elements name the array. -/
theorem eq_var_of_ref? {x : Instr} {op : Opcode} {width : Width} {r : Ref}
    (hop : x.op = .known op) (hwidth : op.elementWidth? = some width) (hr : x.ref? = some r) :
    r = .var x.sym := by
  unfold Opcode.elementWidth? at hwidth
  split at hwidth
  case h_5 => cases hwidth
  all_goals
    simp only [Instr.ref?, hop, Option.ite_none_left_eq_some] at hr
    exact (Option.some.inj hr.2).symm

/-- The idiom works on the element that both pairs of its instructions stand for. -/
theorem Lowers.isNamedIn {w : List Instr} {code : Code} (h : constElement.Lowers w code) :
    ∀ e ∈ elements w, e.IsNamedIn code := by
  obtain ⟨hlen, hp, _, pool, ⟨⟩, hcode⟩ := h
  obtain ⟨i, u, rfl⟩ := List.exists_cons_of_length_eq_add_one hlen
  obtain ⟨x, o, j, y, rfl⟩ := List.length_eq_four.mp (Nat.succ.inj hlen)
  have hp := Except.ok.inj (Option.some.inj hp)
  simp only [Bool.and_eq_true] at hp
  obtain ⟨⟨⟨⟨-, -⟩, hj⟩, harg⟩, hsame⟩ := hp
  obtain ⟨n, hn, hcode⟩ := Reading.of_bind_eq_some hcode
  obtain ⟨width, hwidth, hcode⟩ := Reading.of_bind_eq_some hcode
  have hn := Assignment.int?_of_integer hn
  obtain ⟨op, op', hop, hop', hread, hx, hy⟩ := of_elementWidth?_eq_some (Except.ok.inj hwidth)
  obtain ⟨r, hr, hr'⟩ := Instr.exists_ref_of_sameRef hsame
  have hsym : x.sym = y.sym := by
    rw [eq_var_of_ref? hop hx hr] at hr'
    exact Ref.var.inj (eq_var_of_ref? hop' hy hr')
  have hxo : element? x o = none := by
    refine Option.eq_none_iff_forall_ne_some.mpr fun e he => hread ?_
    exact Coded.known.inj (hop.symm.trans (element?_eq_some_iff.mp he).1)
  have hoj : element? o j = none := by
    simp [element?, Instr.elementWidth?_eq (beq_iff_eq.mp hj), Opcode.elementWidth?]
  intro e he
  have he : e = ⟨x.sym, n, width⟩ := by
    have he : element? i x = some e ∨ element? j y = some e := by
      simpa [elements, hxo, hoj] using he
    rcases he with he | he
    · exact eq_of_element? ((Instr.elementWidth?_eq hop).trans hx) hn he
    · rw [hsym]
      exact eq_of_element? ((Instr.elementWidth?_eq hop').trans hy) (int?_of_sameArg harg hn) he
  subst he
  cases width with
  | byte => exact List.cons_subset.mpr ⟨lo_mem_operands_inPlace (Except.ok.inj hcode), by simp⟩
  | word => exact operands_inPlace (Except.ok.inj hcode)

end Idiom

/-- Rules and the idiom for constant indices name the bytes of an element by expressions. The two
instructions on their own, with room for the index on the stack, use the bytes at the offset
modulo 256. These are the same as long as the offset, in 16 bits, is in a byte. -/
theorem named_elements_iff (L : Layout) (scope : Option Text) (s : Session) {i x : Instr}
    {e : Element} (he : element? i x = some e) :
    (∀ r ∈ Assignment.rules, ∀ w pool f, (∀ y ∈ w, y.isComplete) → r.offer? w pool = some f →
      e ∈ elements (w.take r.size) → e.IsNamedIn f.code) ∧
    (∀ w pool f, Idiom.constElement.offer? w pool = some f →
      e ∈ elements (w.take Idiom.constElement.span) → e.IsNamedIn f.code) ∧
    ∃ ls, standaloneLines scope [i, x] s = some ls ∧ ∀ c : Cpu, 0 < c.x.toNat →
      L.accesses e.array ls c = Site.words ⟨e.width, L.address e.array + e.offset % 256⟩ ∧
      (L.accesses e.array ls c = e.places.map (fun p => .ofInt 16 (L.value p)) ↔
        e.offset % 65536 < 256) := by
  refine ⟨fun r hr w pool f hw hoffer => Assignment.isNamedIn_of_offer? hr hw hoffer e,
    fun w pool f hoffer => (Idiom.lowers_of_offer? hoffer).isNamedIn e, ?_⟩
  obtain ⟨ls, hls, haccess⟩ := exists_lines_accesses he
  refine ⟨ls, hls scope s, fun c hc => ⟨haccess L c hc, ?_⟩⟩
  rw [haccess L c hc, e.map_value_places, Site.words_eq_iff]
  omega

namespace Indexing

def layout : Layout := ⟨fun _ => 0x1000, fun _ c => c⟩

def cpu : Cpu := ⟨0, 254, 0, 0xff, false, false, false, false, fun _ => 0⟩

def index (n : Int64) : Instr := { op := .known .pushByte, arg := some (.int n) }

def readWord : Instr := { op := .known .readIndexedVarWord, sym := "a" }

def readByte : Instr := { op := .known .readIndexedVarByte, sym := "a" }

end Indexing

open Indexing Assignment in
/-- The last word that both reach. -/
theorem named_elements_iff_last :
    element? (index 127) readWord = some ⟨"a", 127, .word⟩ ∧
    (wordRule wordDests[0] wordSources[3]).offer?
      [index 127, readWord, { op := .known .popVarWord, sym := "v" }] .empty =
      some ⟨"word var = array[const]", Code.each [lda (.direct (.plus (.name "a") 254)),
        sta (.direct (.name "v")), lda (.direct (.plus (.plus (.name "a") 254) 1)),
        sta (.direct (.plus (.name "v") 1))], 3, false⟩ ∧
    ∃ ls, standaloneLines none [index 127, readWord] .start = some ls ∧
      layout.accesses "a" ls cpu = [0x10fe, 0x10ff] ∧
      layout.accesses "a" ls cpu =
        (Element.places ⟨"a", 127, .word⟩).map (fun p => .ofInt 16 (layout.value p)) := by
  have he : element? (index 127) readWord = some ⟨"a", 127, .word⟩ := by decide
  refine ⟨he, by decide, ?_⟩
  obtain ⟨-, -, ls, hls, haccess⟩ := named_elements_iff layout none .start he
  obtain ⟨hoffset, hiff⟩ := haccess cpu (by decide)
  exact ⟨ls, hls, hoffset.trans (by decide), hiff.mpr (by decide)⟩

open Indexing Assignment in
/-- A negative index is before the array as a number, but not as a byte. -/
theorem named_element_differs :
    element? (index (-1)) readByte = some ⟨"a", -1, .byte⟩ ∧
    (byteRule byteDests[0] byteSources[3]).offer?
      [index (-1), readByte, { op := .known .popVarByte, sym := "v" }] .empty =
      some ⟨"byte var = array[const]", [[], [lda (.direct (.plus (.name "a") (-1)))],
        [sta (.direct (.name "v"))]], 3, false⟩ ∧
    (Element.places ⟨"a", -1, .byte⟩).map (fun p => BitVec.ofInt 16 (layout.value p)) = [0x0fff] ∧
    ∃ ls, standaloneLines none [index (-1), readByte] .start = some ls ∧
      layout.accesses "a" ls cpu = [0x10ff] := by
  refine ⟨by decide, by decide, by decide, _, rfl, ?_⟩
  decide

end Stack6502
