import Stack6502.Program.Basic

/-!
# Names for the assembler

Every block is a scope of the assembler, so names of a block lose the block's own name in front,
and the other dots in a name become underscores. Renaming fails if two things of one scope end up
with one name.
-/
namespace Stack6502

inductive BlockNameFault
  | declaration (name : Text)
  | label (name : Text)
  deriving DecidableEq, Repr

inductive NameFault
  | shared (first second short : Text)
  | inBlock (block : Text) (fault : BlockNameFault)
  deriving DecidableEq, Repr

def BlockNameFault.message : BlockNameFault → Text
  | .declaration name => "duplicate declaration: " ++ name
  | .label name => "duplicate label: " ++ name

def NameFault.message : NameFault → Text
  | .shared first second short =>
    "blocks " ++ first ++ " and " ++ second ++ " share name " ++ short
  | .inBlock block fault => "block " ++ block ++ ": " ++ fault.message

namespace Naming

def dot : UInt8 := Text.byte '.'

/-- Nothing but plus signs or nothing but minus signs: a label that may be defined many times. -/
def isAnonymous (name : Text) : Bool :=
  !name.isEmpty && (name.all (· == Text.byte '+') || name.all (· == Text.byte '-'))

/-- Dots become underscores. -/
def flatten (name : Text) : Text := name.map fun b => if b == dot then Text.byte '_' else b

/-- Angle brackets that mark generated names. -/
def dropMarks (name : Text) : Text :=
  Text.replaceAll ">>>" "" (Text.replaceAll "<<<" "tg_" name)

/-- A name that is not of this block keeps its first dot, which stands after a scope's name. -/
def flattenForeign (name : Text) : Text :=
  match name.cut dot with
  | (scope, some rest) => scope ++ [dot] ++ flatten rest
  | (_, none) => name

/-- The name that `name` gets inside the block called `short`. -/
def rename (short name : Text) : Text :=
  if name.isEmpty || name.contains Text.space then name
  else
    let own := Text.after? (short ++ [dot]) name
    let plain := dropMarks (own.getD name)
    if isAnonymous plain then plain
    else
      let flat := if own.isSome then flatten plain else flattenForeign plain
      flat.filter (· != Text.byte '-')

/-- Renames declarations after those already named. -/
def renameDecls (short : Text) : (taken : List Text) → List Decl →
    Except BlockNameFault (List Decl × List Text)
  | taken, [] => .ok ([], taken)
  | taken, d :: ds => do
    let name := rename short d.name
    if taken.contains name then .error (.declaration name)
    else
      let (ds, taken) ← renameDecls short (name :: taken) ds
      return ({ d with name } :: ds, taken)

def renameInstr (short : Text) (x : Instr) : Instr :=
  match x.op with
  | .known .inlineAssembly | .known .line => x
  | .known .label => { x with sym := rename short x.sym }
  | _ => { x with sym := rename short x.sym, sym2 := rename short x.sym2 }

/-- The name an instruction defines, unless it is anonymous. -/
def defined? (x : Instr) : Option Text :=
  if x.isLabel && !isAnonymous x.sym then some x.sym else none

def renameCode (short : Text) : (taken : List Text) → List Instr →
    Except BlockNameFault (List Instr)
  | _, [] => .ok []
  | taken, x :: xs => do
    let x := renameInstr short x
    let taken ← match defined? x with
      | none => pure taken
      | some name => if taken.contains name then .error (.label name) else pure (name :: taken)
    let xs ← renameCode short taken xs
    return x :: xs

end Naming

open Naming

def Block.rename (b : Block) : Except BlockNameFault Block := do
  let (decls, taken) ← renameDecls b.short [] b.decls
  let code ← renameCode b.short taken b.code
  return { b with decls, code }

/-- Renames blocks after those whose short and full names are `seen`. -/
def renameBlocks : (seen : List (Text × Text)) → List Block → Except NameFault (List Block)
  | _, [] => .ok []
  | seen, b :: bs =>
    match seen.lookup b.short with
    | some first => .error (.shared first b.name b.short)
    | none =>
      match b.rename with
      | .error fault => .error (.inBlock b.name fault)
      | .ok renamed => do
        let bs ← renameBlocks ((b.short, b.name) :: seen) bs
        return renamed :: bs

def Program.rename (p : Program) : Except NameFault Program := do
  let blocks ← renameBlocks [] p.blocks
  return { p with blocks }

end Stack6502
