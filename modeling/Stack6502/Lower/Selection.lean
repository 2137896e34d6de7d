import Stack6502.Lower.Assignment
import Stack6502.Lower.Fallback
import Stack6502.Lower.Idiom

/-!
# Selection

At each place in the code the longest pattern that matches and yields code is taken. Idioms come
before rules of the same length, and earlier patterns before later ones. Where no pattern applies
the code of the opcode on its own is taken.
-/
namespace Stack6502

inductive CatalogFault
  | badSequence (rule : Text)
  | badSpan (idiom : Text)
  deriving DecidableEq, Repr

def CatalogFault.message : CatalogFault → Text
  | .badSequence rule => "rule " ++ rule ++ ": bad sequence"
  | .badSpan idiom => "idiom " ++ idiom ++ ": bad span"

/-- A rule with its place among the rules. -/
abbrev PlacedRule := Nat × Rule

/-- Patterns and the number of instructions to look ahead. The index holds, for each opcode, the
rules that can match where it stands. -/
structure Catalog where
  window : Int
  idioms : List Idiom
  rules : List Rule
  index : List (Opcode × List PlacedRule)

namespace Catalog

def placed (rules : List Rule) : List PlacedRule := rules.zipIdx.map fun (r, j) => (j, r)

def indexOf (rules : List Rule) : List (Opcode × List PlacedRule) :=
  Opcode.all.map fun op => (op, (placed rules).filter (·.2.startsAt op))

/-- The first badly formed rule counts, then the first idiom without a span. -/
def make (window : Int) (idioms : List Idiom) (rules : List Rule) : Except CatalogFault Catalog :=
  match rules.find? (!·.isWellFormed), idioms.find? (·.span == 0) with
  | some r, _ => .error (.badSequence r.name)
  | none, some i => .error (.badSpan i.name)
  | none, none => .ok ⟨window, idioms, rules, indexOf rules⟩

def defaultWindow : Int := 6

def standard : Catalog :=
  ⟨defaultWindow, Idiom.all, Assignment.rules, indexOf Assignment.rules⟩

def rulesAt (c : Catalog) (op : Opcode) : List PlacedRule := (c.index.lookup op).getD []

/-- The opcodes without code of their own. -/
def missing : List Opcode := Opcode.all.filter fun op => (fallback? op).isNone

/-- Names of patterns that lack a function or bear a name already used. -/
def badNames : (used : List Text) → List (Text × Bool) → List Text
  | _, [] => []
  | used, (name, isWhole) :: rest =>
    let bad := badNames (name :: used) rest
    if !isWhole || used.contains name then name :: bad else bad

def bad (c : Catalog) : List Text :=
  badNames [] (c.rules.map (fun r => (r.name, r.lowering.isSome)) ++
    c.idioms.map fun i => (i.name, i.predicate.isSome && i.lowering.isSome))

end Catalog

/-- Selection may meet a defect, and carries the session along. -/
abbrev Selecting := ExceptT Defect (StateM Session)

/-- A fragment with the place of its pattern in the catalog. -/
structure Candidate where
  fragment : Fragment
  order : Nat
  deriving DecidableEq, Repr

/-- Longer fragments first, then patterns in order. -/
def Candidate.isBetter (a b : Candidate) : Bool :=
  if a.fragment.size = b.fragment.size then a.order < b.order
  else b.fragment.size < a.fragment.size

def Candidate.best (best : Option Candidate) (c : Candidate) : Option Candidate :=
  match best with
  | none => some c
  | some b => if c.isBetter b then some c else some b

namespace Selection

/-- The instructions in reach, up to the first that lacks an operand. -/
def reach (window : Nat) (code : List Instr) : List Instr :=
  (code.take window).takeWhile Instr.isComplete

/-- An answer that does not touch the session. -/
def liftExcept {α : Type} (e : Except Defect α) : Selecting α := ExceptT.mk (pure e)

/-- Asks a pattern for code. -/
def ask (name : Text) (lowering : Option Lowering) (w : List Instr) :
    Selecting (Option Code) :=
  match lowering with
  | none => throw (.noLowering name)
  | some lower => ExceptT.mk <| modifyGet fun s =>
    let (answer, pool) := lower w s.pool
    (answer, { s with pool })

/-- The better of the best candidate so far and the one a pattern yields on `w`. -/
def consider (name : Text) (lowering : Option Lowering) (w : List Instr) (order : Nat)
    (best : Option Candidate) : Selecting (Option Candidate) := do
  match ← ask name lowering w with
  | none => return best
  | some code => return Candidate.best best ⟨⟨name, code, w.length, false⟩, order⟩

def tryIdioms (w : List Instr) : List (Idiom × Nat) → Option Candidate →
    Selecting (Option Candidate)
  | [], best => return best
  | (i, order) :: rest, best => do
    if i.span > w.length then tryIdioms w rest best
    else match i.predicate with
      | none => throw (.noPredicate i.name)
      | some p =>
        if ← liftExcept (p (w.take i.span)) then
          tryIdioms w rest (← consider i.name i.lowering (w.take i.span) order best)
        else tryIdioms w rest best

def tryRules (w : List Instr) (idioms : Nat) : List PlacedRule → Option Candidate →
    Selecting (Option Candidate)
  | [], best => return best
  | (j, r) :: rest, best => do
    if r.isMatch w then
      tryRules w idioms rest
        (← consider r.name r.lowering (w.take r.size) (idioms + j) best)
    else tryRules w idioms rest best

/-- The code for an instruction with opcode `op` on its own. -/
def alone (scope : Option Text) (op : Opcode) (x : Instr) : Selecting (Option Fragment) := do
  match fallback? op with
  | none => return none
  | some f =>
    let code ← ExceptT.mk (modifyGet (f scope x))
    return code.map fun code => ⟨"fallback " ++ op.name, code, 1, op == .inlineAssembly⟩

end Selection

open Selection in
/-- The fragment for the start of `code`, if there is any. -/
def Catalog.select (c : Catalog) (scope : Option Text) (code : List Instr) :
    Selecting (Option Fragment) := do
  if c.window < 0 then throw .negativeWindow
  else
    let w := reach c.window.toNat code
    match w with
    | [] => return none
    | x :: _ =>
      let best ← tryIdioms w c.idioms.zipIdx none
      match x.op with
      | .stray n => throw (.strayOpcode n)
      | .known op =>
        let best ← tryRules w c.idioms.length (c.rulesAt op) best
        match best with
        | some b => return some b.fragment
        | none => alone scope op x

/-- The fragments for the start of some code, the rest without one, and the defect met there. -/
structure Selection where
  fragments : List Fragment
  rest : List Instr
  defect : Option Defect
  deriving DecidableEq, Repr

/-- Selects fragment after fragment as far as there are any. -/
def Catalog.selectAll (c : Catalog) (scope : Option Text) : List Instr → StateM Session Selection
  | [] => return ⟨[], [], none⟩
  | x :: code => do
    match ← (c.select scope (x :: code)).run with
    | .error d => return ⟨[], x :: code, some d⟩
    | .ok none => return ⟨[], x :: code, none⟩
    | .ok (some f) =>
      let s ← c.selectAll scope (code.drop (f.size - 1))
      return { s with fragments := f :: s.fragments }
termination_by code => code.length
decreasing_by
  simp only [List.length_drop, List.length_cons]
  omega

end Stack6502
