import Stack6502.Lower.InPlace
import Stack6502.Program.Instr
import Stack6502.Proofs.Processor

/-!
# The typed operand stack

Instructions as operations on memory and a stack of bytes and words, without a processor. An
operation without an entry of the right width to work on has no result; `exec_of_signature` says
that well typed ones always have one.
-/
namespace Stack6502

inductive Entry
  | byte (b : Byte)
  | word (w : Word)
  deriving DecidableEq, Repr

def Entry.width : Entry → Width
  | .byte _ => .byte
  | .word _ => .word

structure Operands where
  mem : Memory
  stack : List Entry

namespace Memory

/-- Words have their low byte first. -/
def get (m : Memory) (a : Int) : Width → Entry
  | .byte => .byte (m (.ofInt 16 a))
  | .word => .word (.ofBytes (m (.ofInt 16 (a + 1))) (m (.ofInt 16 a)))

def set (m : Memory) (a : Int) : Entry → Memory
  | .byte b => Function.update m (.ofInt 16 a) b
  | .word w => m.put (.ofInt 16 a) (.ofInt 16 (a + 1)) w

end Memory

structure Site where
  width : Width
  address : Int
  deriving DecidableEq, Repr

def Site.addresses (s : Site) : List Int :=
  match s.width with
  | .byte => [s.address]
  | .word => [s.address, s.address + 1]

/-- The offset of an element of an array of words: twice the index, in a byte. From index 128 on it
wraps around to the start of the array. -/
def wordOffset (i : Byte) : Byte := i <<< 1

/-- Where an instruction reads or writes memory. The index of an element is on top of the stack. -/
def Instr.site? (L : Layout) (x : Instr) (stack : List Entry) : Option Site :=
  match x.op with
  | .known .pushVarByte | .known .popVarByte | .known .incVarUB | .known .incVarB
  | .known .decVarUB | .known .decVarB => some ⟨.byte, L.address x.sym⟩
  | .known .pushVarWord | .known .popVarWord | .known .incVarUW | .known .incVarW
  | .known .decVarUW | .known .decVarW => some ⟨.word, L.address x.sym⟩
  | .known .pushMemB | .known .pushMemUB | .known .popMemByte =>
    x.int?.map fun a => ⟨.byte, a.toInt⟩
  | .known .pushMemW | .known .pushMemUW | .known .popMemWord =>
    x.int?.map fun a => ⟨.word, a.toInt⟩
  | .known .readIndexedVarByte | .known .writeIndexedVarByte =>
    match stack with
    | .byte i :: _ => some ⟨.byte, L.address x.sym + i.toNat⟩
    | _ => none
  | .known .readIndexedVarWord | .known .writeIndexedVarWord =>
    match stack with
    | .byte i :: _ => some ⟨.word, L.address x.sym + (wordOffset i).toNat⟩
    | _ => none
  | _ => none

namespace Operands

def push (σ : Operands) (e : Entry) : Operands := { σ with stack := e :: σ.stack }

def load (σ : Operands) (s : Site) : Operands := σ.push (Memory.get σ.mem s.address s.width)

def store (σ : Operands) (s : Site) : Option Operands :=
  match σ.stack with
  | e :: st => if e.width = s.width then some ⟨Memory.set σ.mem s.address e, st⟩ else none
  | [] => none

/-- An index is replaced by the element found there. -/
def read (σ : Operands) (s : Site) : Option Operands :=
  match σ.stack with
  | .byte _ :: st => some ⟨σ.mem, Memory.get σ.mem s.address s.width :: st⟩
  | _ => none

/-- The value stands below the index. -/
def write (σ : Operands) (s : Site) : Option Operands :=
  match σ.stack with
  | .byte _ :: e :: st =>
    if e.width = s.width then some ⟨Memory.set σ.mem s.address e, st⟩ else none
  | _ => none

def bump (σ : Operands) (n : Int) (s : Site) : Operands :=
  match Memory.get σ.mem s.address s.width with
  | .byte b => { σ with mem := Memory.set σ.mem s.address (.byte (b + .ofInt 8 n)) }
  | .word w => { σ with mem := Memory.set σ.mem s.address (.word (w + .ofInt 16 n)) }

def drop (σ : Operands) (w : Width) : Option Operands :=
  match σ.stack with
  | e :: st => if e.width = w then some { σ with stack := st } else none
  | [] => none

def onByte (σ : Operands) (f : Byte → Entry) : Option Operands :=
  match σ.stack with
  | .byte b :: st => some { σ with stack := f b :: st }
  | _ => none

def onWord (σ : Operands) (f : Word → Entry) : Option Operands :=
  match σ.stack with
  | .word w :: st => some { σ with stack := f w :: st }
  | _ => none

/-- The left operand stands below the right one. -/
def onBytes (σ : Operands) (f : Byte → Byte → Byte) : Option Operands :=
  match σ.stack with
  | .byte r :: .byte l :: st => some { σ with stack := .byte (f l r) :: st }
  | _ => none

def onWords (σ : Operands) (f : Word → Word → Word) : Option Operands :=
  match σ.stack with
  | .word r :: .word l :: st => some { σ with stack := .word (f l r) :: st }
  | _ => none

end Operands

def Instr.exec (L : Layout) (x : Instr) (σ : Operands) : Option Operands :=
  match x.op with
  | .stray _ => none
  | .known op =>
    let site := x.site? L σ.stack
    match op with
    | .pushByte => x.int?.map fun v => σ.push (.byte (.ofInt 8 v.toInt))
    | .pushWord => x.int?.map fun v => σ.push (.word (.ofInt 16 v.toInt))
    | .pushVarByte | .pushVarWord | .pushMemB | .pushMemUB | .pushMemW | .pushMemUW =>
      site.map σ.load
    | .popVarByte | .popVarWord | .popMemByte | .popMemWord => site.bind σ.store
    | .discardByte => σ.drop .byte
    | .discardWord => σ.drop .word
    | .readIndexedVarByte | .readIndexedVarWord => site.bind σ.read
    | .writeIndexedVarByte | .writeIndexedVarWord => site.bind σ.write
    | .incVarUB | .incVarB | .incVarUW | .incVarW => site.map (σ.bump 1)
    | .decVarUB | .decVarB | .decVarUW | .decVarW => site.map (σ.bump (-1))
    | .addUB | .addB => σ.onBytes (· + ·)
    | .subUB | .subB => σ.onBytes (· - ·)
    | .andByte => σ.onBytes (· &&& ·)
    | .orByte => σ.onBytes (· ||| ·)
    | .xorByte => σ.onBytes (· ^^^ ·)
    | .andWord => σ.onWords (· &&& ·)
    | .orWord => σ.onWords (· ||| ·)
    | .xorWord => σ.onWords (· ^^^ ·)
    | .shlByte => σ.onByte fun b => .byte (b <<< 1)
    | .shrByte => σ.onByte fun b => .byte (b >>> 1)
    | .rol2Byte => σ.onByte fun b => .byte (b.rotateLeft 1)
    | .ror2Byte => σ.onByte fun b => .byte (b.rotateRight 1)
    | .invByte => σ.onByte fun b => .byte (~~~b)
    | .negB => σ.onByte fun b => .byte (-b)
    | .notByte => σ.onByte fun b => .byte (if b = 0 then 1 else 0)
    | .shlWord => σ.onWord fun w => .word (w <<< 1)
    | .shrWord => σ.onWord fun w => .word (w >>> 1)
    | .shl8Word => σ.onWord fun w => .word (w <<< 8)
    | .shr8Word => σ.onWord fun w => .word (w >>> 8)
    | .rol2Word => σ.onWord fun w => .word (w.rotateLeft 1)
    | .ror2Word => σ.onWord fun w => .word (w.rotateRight 1)
    | .invWord => σ.onWord fun w => .word (~~~w)
    | .negW => σ.onWord fun w => .word (-w)
    | .notWord => σ.onWord fun w => .word (if w = 0 then 1 else 0)
    | .ub2uword => σ.onByte fun b => .word (b.setWidth 16)
    | .b2word => σ.onByte fun b => .word (b.signExtend 16)
    | .b2ub | .ub2b => σ.onByte .byte
    | .msb => σ.onWord fun w => .byte w.high
    | .lsb => σ.onWord fun w => .byte w.low
    | _ => none

def execAll (L : Layout) : List Instr → Operands → Option Operands
  | [], σ => some σ
  | x :: xs, σ => (x.exec L σ).bind (execAll L xs)

/-- The widths an operation takes from the stack, top first, and those it leaves there. -/
structure Signature where
  takes : List Width
  gives : List Width
  deriving DecidableEq, Repr

/-- The operations on bytes and words that need no routine of the library and no flag. -/
def Opcode.signature? : Opcode → Option Signature
  | .pushByte | .pushVarByte | .pushMemB | .pushMemUB => some ⟨[], [.byte]⟩
  | .pushWord | .pushVarWord | .pushMemW | .pushMemUW => some ⟨[], [.word]⟩
  | .popVarByte | .popMemByte | .discardByte => some ⟨[.byte], []⟩
  | .popVarWord | .popMemWord | .discardWord => some ⟨[.word], []⟩
  | .readIndexedVarByte => some ⟨[.byte], [.byte]⟩
  | .readIndexedVarWord => some ⟨[.byte], [.word]⟩
  | .writeIndexedVarByte => some ⟨[.byte, .byte], []⟩
  | .writeIndexedVarWord => some ⟨[.byte, .word], []⟩
  | .incVarUB | .incVarB | .incVarUW | .incVarW
  | .decVarUB | .decVarB | .decVarUW | .decVarW => some ⟨[], []⟩
  | .addUB | .addB | .subUB | .subB | .andByte | .orByte | .xorByte =>
    some ⟨[.byte, .byte], [.byte]⟩
  | .andWord | .orWord | .xorWord => some ⟨[.word, .word], [.word]⟩
  | .shlByte | .shrByte | .rol2Byte | .ror2Byte | .invByte | .negB | .notByte | .b2ub | .ub2b =>
    some ⟨[.byte], [.byte]⟩
  | .shlWord | .shrWord | .shl8Word | .shr8Word | .rol2Word | .ror2Word | .invWord | .negW
  | .notWord => some ⟨[.word], [.word]⟩
  | .ub2uword | .b2word => some ⟨[.byte], [.word]⟩
  | .msb | .lsb => some ⟨[.word], [.byte]⟩
  | _ => none

/-- Code that finds the widths `us` on the stack and leaves `vs`, never more than 255 entries
deep. -/
inductive Typed : List Instr → (us vs : List Width) → Prop
  | nil {us : List Width} : Typed [] us us
  | cons {x : Instr} {xs : List Instr} {op : Opcode} {sig : Signature} {us vs : List Width}
      (known : x.op = .known op) (signature : op.signature? = some sig)
      (depth : (sig.gives ++ us).length ≤ 255) (rest : Typed xs (sig.gives ++ us) vs) :
      Typed (x :: xs) (sig.takes ++ us) vs

theorem Entry.byte_of_width {st : List Entry} {ts : List Width}
    (h : st.map Entry.width = .byte :: ts) :
    ∃ b st', st = .byte b :: st' ∧ st'.map Entry.width = ts := by
  cases st with
  | nil => simp at h
  | cons e st =>
    cases e with
    | byte b => exact ⟨b, st, rfl, by simpa [Entry.width] using h⟩
    | word w => simp [Entry.width] at h

theorem Entry.word_of_width {st : List Entry} {ts : List Width}
    (h : st.map Entry.width = .word :: ts) :
    ∃ w st', st = .word w :: st' ∧ st'.map Entry.width = ts := by
  cases st with
  | nil => simp at h
  | cons e st =>
    cases e with
    | byte b => simp [Entry.width] at h
    | word w => exact ⟨w, st, rfl, by simpa [Entry.width] using h⟩

@[simp] theorem Memory.get_width (m : Memory) (a : Int) (w : Width) :
    (Memory.get m a w).width = w := by
  cases w <;> rfl

namespace Operands

variable {σ : Operands} {ts : List Width}

def Gives (r : Option Operands) (us : List Width) : Prop :=
  ∃ σ', r = some σ' ∧ σ'.stack.map Entry.width = us

theorem gives_push (e : Entry) (h : σ.stack.map Entry.width = ts) :
    Gives (some (σ.push e)) (e.width :: ts) := ⟨_, rfl, by simp [push, h]⟩

theorem gives_load (s : Site) (h : σ.stack.map Entry.width = ts) :
    Gives (some (σ.load s)) (s.width :: ts) := by
  simpa [load] using gives_push (Memory.get σ.mem s.address s.width) h

theorem gives_store (s : Site) (h : σ.stack.map Entry.width = s.width :: ts) :
    Gives (σ.store s) ts := by
  obtain ⟨e, st, hst, he, hs⟩ := List.map_eq_cons_iff.mp h
  exact ⟨⟨Memory.set σ.mem s.address e, st⟩, by simp [store, hst, he], hs⟩

theorem gives_drop (w : Width) (h : σ.stack.map Entry.width = w :: ts) :
    Gives (σ.drop w) ts := by
  obtain ⟨e, st, hst, he, hs⟩ := List.map_eq_cons_iff.mp h
  exact ⟨{ σ with stack := st }, by simp [drop, hst, he], hs⟩

theorem gives_read (s : Site) (h : σ.stack.map Entry.width = .byte :: ts) :
    Gives (σ.read s) (s.width :: ts) := by
  obtain ⟨b, st, hst, hs⟩ := Entry.byte_of_width h
  exact ⟨⟨σ.mem, Memory.get σ.mem s.address s.width :: st⟩, by simp [read, hst], by simp [hs]⟩

theorem gives_write (s : Site) (h : σ.stack.map Entry.width = .byte :: s.width :: ts) :
    Gives (σ.write s) ts := by
  obtain ⟨b, st, hst, hs⟩ := Entry.byte_of_width h
  obtain ⟨e, st', rfl, he, hs⟩ := List.map_eq_cons_iff.mp hs
  exact ⟨⟨Memory.set σ.mem s.address e, st'⟩, by simp [write, hst, he], hs⟩

theorem gives_bump (n : Int) (s : Site) (h : σ.stack.map Entry.width = ts) :
    Gives (some (σ.bump n s)) ts := by
  refine ⟨_, rfl, ?_⟩
  unfold bump
  split <;> exact h

theorem gives_onByte (f : Byte → Entry) (w : Width) (hf : ∀ b, (f b).width = w)
    (h : σ.stack.map Entry.width = .byte :: ts) : Gives (σ.onByte f) (w :: ts) := by
  obtain ⟨b, st, hst, hs⟩ := Entry.byte_of_width h
  exact ⟨{ σ with stack := f b :: st }, by simp [onByte, hst], by simp [hf, hs]⟩

theorem gives_onWord (f : Word → Entry) (w : Width) (hf : ∀ v, (f v).width = w)
    (h : σ.stack.map Entry.width = .word :: ts) : Gives (σ.onWord f) (w :: ts) := by
  obtain ⟨v, st, hst, hs⟩ := Entry.word_of_width h
  exact ⟨{ σ with stack := f v :: st }, by simp [onWord, hst], by simp [hf, hs]⟩

theorem gives_onBytes (f : Byte → Byte → Byte)
    (h : σ.stack.map Entry.width = .byte :: .byte :: ts) : Gives (σ.onBytes f) (.byte :: ts) := by
  obtain ⟨r, st, hst, hr⟩ := Entry.byte_of_width h
  obtain ⟨l, st', rfl, hs⟩ := Entry.byte_of_width hr
  exact ⟨{ σ with stack := .byte (f l r) :: st' }, by simp [onBytes, hst],
    by simp [Entry.width, hs]⟩

theorem gives_onWords (f : Word → Word → Word)
    (h : σ.stack.map Entry.width = .word :: .word :: ts) : Gives (σ.onWords f) (.word :: ts) := by
  obtain ⟨r, st, hst, hr⟩ := Entry.word_of_width h
  obtain ⟨l, st', rfl, hs⟩ := Entry.word_of_width hr
  exact ⟨{ σ with stack := .word (f l r) :: st' }, by simp [onWords, hst],
    by simp [Entry.width, hs]⟩

end Operands

namespace Instr

variable {x : Instr} {op : Opcode}

theorem hasOperand_of_isComplete (hx : x.isComplete) (known : x.op = .known op) :
    x.hasOperand op.operand := by
  simpa [isComplete, fault?, known] using hx

theorem exists_int (hx : x.isComplete) (known : x.op = .known op)
    (hop : op.operand = .int) : ∃ v, x.int? = some v := by
  have h := hasOperand_of_isComplete hx known
  rw [hop] at h
  exact Option.isSome_iff_exists.mp h

theorem sym_nonempty (hx : x.isComplete) (known : x.op = .known op)
    (hop : op.operand = .name) : x.sym.isEmpty = false := by
  have h := hasOperand_of_isComplete hx known
  rw [hop] at h
  simpa [hasOperand] using h

end Instr

open Operands in
/-- Progress and preservation: an operation that finds what its signature takes has a result and
leaves what the signature gives. -/
theorem Instr.exec_of_signature (L : Layout) {x : Instr} {op : Opcode} {sig : Signature}
    {σ : Operands} {ts : List Width} (hx : x.isComplete) (known : x.op = .known op)
    (hs : op.signature? = some sig) (h : σ.stack.map Entry.width = sig.takes ++ ts) :
    Gives (x.exec L σ) (sig.gives ++ ts) := by
  cases op with
  | pushByte | pushWord =>
    cases hs
    obtain ⟨v, hv⟩ := x.exists_int hx known rfl
    simpa [exec, known, hv, Entry.width] using gives_push _ h
  | pushVarByte | pushVarWord =>
    cases hs
    simpa [exec, known, site?] using gives_load _ h
  | pushMemB | pushMemUB | pushMemW | pushMemUW =>
    cases hs
    obtain ⟨a, ha⟩ := x.exists_int hx known rfl
    simpa [exec, known, site?, ha] using gives_load _ h
  | popVarByte | popVarWord =>
    cases hs
    simpa [exec, known, site?] using gives_store _ h
  | popMemByte | popMemWord =>
    cases hs
    obtain ⟨a, ha⟩ := x.exists_int hx known rfl
    simpa [exec, known, site?, ha] using gives_store _ h
  | discardByte | discardWord =>
    cases hs
    simpa [exec, known] using gives_drop _ h
  | readIndexedVarByte | readIndexedVarWord =>
    cases hs
    obtain ⟨i, st, hst, -⟩ := Entry.byte_of_width h
    simpa [exec, known, site?, hst] using gives_read _ h
  | writeIndexedVarByte | writeIndexedVarWord =>
    cases hs
    obtain ⟨i, st, hst, -⟩ := Entry.byte_of_width h
    simpa [exec, known, site?, hst] using gives_write _ h
  | incVarUB | incVarB | incVarUW | incVarW | decVarUB | decVarB | decVarUW | decVarW =>
    cases hs
    simpa [exec, known, site?] using gives_bump _ _ h
  | addUB | addB | subUB | subB | andByte | orByte | xorByte =>
    cases hs
    simp only [exec, known]
    exact gives_onBytes _ h
  | andWord | orWord | xorWord =>
    cases hs
    simp only [exec, known]
    exact gives_onWords _ h
  | shlByte | shrByte | rol2Byte | ror2Byte | invByte | negB | notByte | b2ub | ub2b | ub2uword
  | b2word =>
    cases hs
    simp only [exec, known]
    exact gives_onByte _ _ (fun _ => rfl) h
  | shlWord | shrWord | shl8Word | shr8Word | rol2Word | ror2Word | invWord | negW | notWord | msb
  | lsb =>
    cases hs
    simp only [exec, known]
    exact gives_onWord _ _ (fun _ => rfl) h
  | _ => cases hs

end Stack6502
