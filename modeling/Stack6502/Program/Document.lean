import Stack6502.Program.Source
import Stack6502.Yaml.Kind

/-!
# Program documents

A decoder of documents in YAML. Anchors, tags and directives are refused, and merge keys are passed
over. A value of the wrong type does not stop the reading, since a bad instruction or number further
on is reported in preference; the document is refused at its end.
-/
namespace Stack6502

namespace Source

open Yaml

/-- The state tells whether something had the wrong type. -/
abbrev Reading := StateT Bool (Except SourceFault)

/-- Notes a value of the wrong type and goes on without it. -/
def mistyped {α : Type} : Reading (Option α) := do
  set true
  return none

/-- Null, which leaves a field as it is and an item out. -/
def isNull : Node → Bool
  | .scalar _ isPlain t => Kind.ofScalar isPlain t == .null
  | _ => false

/-- Runs a reader on a node that is not null. -/
def optional {α : Type} (read : Node → Reading (Option α)) (n : Node) : Reading (Option α) :=
  if isNull n then return none else read n

/-- Any scalar as it is written. -/
def readText : Node → Reading (Option Text) := optional fun
  | .scalar _ _ t => return some t
  | _ => mistyped

/-- Words for truth values beside the two of their own kind. -/
def boolWord? (t : Text) : Option Bool :=
  if ["y", "Y", "yes", "Yes", "YES", "on", "On", "ON"].any (Text.ofString · == t) then some true
  else if ["n", "N", "no", "No", "NO", "off", "Off", "OFF"].any (Text.ofString · == t) then
    some false
  else none

def readBool : Node → Reading (Option Bool) := optional fun
  | .scalar _ isPlain t =>
    match Kind.ofScalar isPlain t, boolWord? t with
    | .bool b, _ | .text, some b => return some b
    | _, _ => mistyped
  | _ => mistyped

def int64? (n : Int) : Option Int64 :=
  if Int64.minValue.toInt ≤ n && n ≤ Int64.maxValue.toInt then some (Int64.ofInt n) else none

/-- The integer that a double is, if it is one. -/
def integer? (x : Double) : Option Int :=
  let scale := Nat.pow 2 (-x.exponent).toNat
  let size := x.mantissa * Nat.pow 2 x.exponent.toNat
  if x.isFinite && size % scale == 0 then
    some (if x.isNegative then -(size / scale : Nat) else (size / scale : Nat))
  else none

/-- An integer, or a float that is one. -/
def readInt : Node → Reading (Option Int64) := optional fun
  | .scalar _ isPlain t =>
    let n := match Kind.ofScalar isPlain t with
      | .int n => int64? n
      | .float x => (integer? x).bind int64?
      | _ => none
    match n with
    | some v => return some v
    | none => mistyped
  | _ => mistyped

def readFloat : Node → Reading (Option Double) := optional fun
  | .scalar _ isPlain t =>
    match Kind.ofScalar isPlain t with
    | .int n => return some (.ofInt n)
    | .float x => return some x
    | _ => mistyped
  | _ => mistyped

/-- A number of the document, or a text that is a number of an instruction. -/
def readValue : Node → Reading (Option Value) := optional fun
  | .scalar _ isPlain t =>
    match Kind.ofScalar isPlain t with
    | .int n =>
      match int64? n with
      | some v => return some (.int v)
      | none => mistyped
    | .float x => return some (.float x)
    | _ =>
      match Value.parse? t with
      | some v => return some v
      | none => throw (.badNumber t)
  | n => throw (.scalarExpected n.line)

def readInstr : Node → Reading (Option WrittenInstr) := optional fun
  | .scalar line _ t =>
    match h : Instr.parse t with
    | .ok x => return some ⟨x, t, h⟩
    | .error fault => throw (.instr line fault)
  | n => throw (.instrExpected n.line)

/-- The items of a list without those that are null. -/
def readItems {α : Type} (read : Node → Reading (Option α)) : List Node → Reading (List α)
  | [] => return []
  | n :: ns => do
    let item ← read n
    let items ← readItems read ns
    return item.toList ++ items

def readList {α : Type} (read : Node → Reading (Option α)) : Node → Reading (Option (List α)) :=
  optional fun
    | .sequence _ items => return some (← readItems read items)
    | _ => mistyped

/-- Scalars are equal if their texts are, and collections of one sort always are. -/
def sameKey : Node → Node → Bool
  | .scalar _ _ t, .scalar _ _ u => t == u
  | .sequence .., .sequence .. => true
  | .mapping .., .mapping .. => true
  | _, _ => false

def hasRepeatedKey : List (Node × Node) → Bool
  | [] => false
  | (key, _) :: rest => rest.any (fun p => sameKey key p.1) || hasRepeatedKey rest

/-- Goes through the pairs of a mapping in order. No key may be repeated. -/
def readPairs {α β : Type} (readKey : Node → Reading (Option β))
    (add : α → β → Node → Reading α) (start : α) : Node → Reading (Option α) :=
  optional fun
    | .mapping _ pairs =>
      if hasRepeatedKey pairs then mistyped
      else do
        let step (a : α) (p : Node × Node) : Reading α := do
          match ← readKey p.1 with
          | some key => add a key p.2
          | none => return a
        return some (← pairs.foldlM step start)
    | _ => mistyped

/-- Sets fields by name; other names are passed over. -/
def readFields {α : Type} (set : α → Text → Node → Reading α) (start : α) :
    Node → Reading (Option α) :=
  readPairs readText set start

def setDecl (d : DeclSource) (key : Text) (n : Node) : Reading DeclSource := do
  if key = "name" then return { d with name := (← readText n).getD d.name }
  else if key = "type" then return { d with type := (← readText n).getD d.type }
  else if key = "value" then return { d with value := ← readValue n }
  else if key = "heap" then return { d with heap := (← readInt n).getD d.heap }
  else if key = "const" then return { d with isConst := (← readBool n).getD d.isConst }
  else return d

def setBlock (b : BlockSource) (key : Text) (n : Node) : Reading BlockSource := do
  if key = "name" then return { b with name := (← readText n).getD b.name }
  else if key = "short" then return { b with short := (← readText n).getD b.short }
  else if key = "address" then return { b with address := ← readValue n }
  else if key = "decls" then
    return { b with decls := (← readList (readFields setDecl {}) n).getD b.decls }
  else if key = "code" then return { b with code := (← readList readInstr n).getD b.code }
  else return b

def setPayload (p : PayloadSource) (key : Text) (n : Node) : Reading PayloadSource := do
  if key = "str" then return { p with str := (← readText n).getD p.str }
  else if key = "array" then return { p with array := (← readList readValue n).getD p.array }
  else if key = "floats" then return { p with floats := (← readList readFloat n).getD p.floats }
  else return p

/-- A payload under its handle. A later one of the same handle takes its place. -/
def setHeap (heap : List (Int64 × PayloadSource)) (handle : Int64) (n : Node) :
    Reading (List (Int64 × PayloadSource)) := do
  let p ← readFields setPayload {} n
  return heap.filter (·.1 != handle) ++ [(handle, p.getD {})]

def setProgram (p : ProgramSource) (key : Text) (n : Node) : Reading ProgramSource := do
  if key = "name" then return { p with name := (← readText n).getD p.name }
  else if key = "launcher" then return { p with launcher := (← readText n).getD p.launcher }
  else if key = "load" then return { p with load := ← readValue n }
  else if key = "blocks" then
    return { p with blocks := (← readList (readFields setBlock {}) n).getD p.blocks }
  else if key = "heap" then return { p with heap := (← readPairs readInt setHeap [] n).getD p.heap }
  else return p

end Source

/-- The fields of a program document. A text without a document is a program without fields. -/
def ProgramSource.read (t : Text) : Except SourceFault ProgramSource :=
  match Yaml.Node.ofText t with
  | none => .error .document
  | some none => .ok {}
  | some (some root) => do
    let (p, isMistyped) ← (Source.readFields Source.setProgram {} root).run false
    if isMistyped then .error .document else .ok (p.getD {})

instance : Decoder := ⟨ProgramSource.read⟩

end Stack6502
