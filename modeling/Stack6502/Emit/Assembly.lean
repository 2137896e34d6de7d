import Stack6502.Emit.Peephole
import Stack6502.Emit.Storage
import Stack6502.Lower.Selection
import Stack6502.Program.Listing
import Stack6502.Program.Naming

/-!
# Assembly of a program

Names are made fit for the assembler, float literals are collected, and then the header, the
blocks and the literals are written one after another. A session may generate many programs; each
starts with an empty pool and no breakpoints, and only the tally of patterns goes on.
-/
namespace Stack6502

structure Options where
  /-- Takes the place of the program's launcher. -/
  launcher : Option (Coded Launcher)
  /-- Takes the place of the program's load address unless it is zero. -/
  load : Int64
  /-- The line number of the BASIC program that starts the code. -/
  basicLine : Int
  charsets : Charsets
  catalog : Catalog

def Options.standard : Options :=
  { launcher := none, load := 0, basicLine := 10, charsets := ⟨.petscii, .screencodes⟩,
    catalog := .standard }

inductive SymbolFault
  | floatValue (name : Text) (value : Value) (type : Coded DataType)
  | badFloat (name : Text)
  deriving DecidableEq, Repr

inductive BlockFault
  | symbol (fault : SymbolFault)
  | storage (name : Text) (fault : StorageFault)
  | unmatched (window : List Instr)
  deriving DecidableEq, Repr

/-- Why a program has no assembly. -/
inductive AssemblyFault
  | naming (fault : NameFault)
  | loadAddress (got : Int64)
  | badConstant (block name : Text)
  | badLiteral (block : Text) (op : Coded Opcode)
  | literal (o : FiveByte.Overflow)
  | inBlock (block : Text) (fault : BlockFault)
  | defect (d : Defect)
  deriving DecidableEq, Repr

def SymbolFault.message : SymbolFault → Text
  | .floatValue name value type =>
    "const " ++ name ++ ": float value " ++ value.text ++ " for " ++ type.typeName
  | .badFloat name => "const " ++ name ++ ": bad float"

def unmatchedMessage (block : Text) (window : List Instr) : Text :=
  "block " ++ block ++ ": no translation for instructions:\n" ++ codeListing 1 window

def BlockFault.message (block : Text) : BlockFault → Text
  | .symbol fault => "memdefs: " ++ fault.message
  | .storage name fault => "variables: var " ++ name ++ ": " ++ fault.message
  | .unmatched window => unmatchedMessage block window

/-- A defect has no text of its own. -/
def AssemblyFault.message : AssemblyFault → Text
  | .naming fault => "rename: " ++ fault.message
  | .loadAddress got => "basic launcher needs load address $0801, got $" ++ hex4 got
  | .badConstant block name =>
    "float constants: block " ++ block ++ ": const " ++ name ++ ": bad float"
  | .badLiteral block op =>
    "float constants: block " ++ block ++ ": " ++ op.opcodeName ++ ": bad float"
  | .literal o => "float constants: " ++ o.message
  | .inBlock block fault => "block " ++ block ++ ": " ++ fault.message block
  | .defect _ => []

/-- The float that was out of range, if that is the cause. -/
def AssemblyFault.overflow? : AssemblyFault → Option FiveByte.Overflow
  | .literal o | .inBlock _ (.storage _ (.overflow o)) => some o
  | _ => none

/-- The block and the instructions that have no code, if that is the cause. -/
def AssemblyFault.unmatched? : AssemblyFault → Option (Text × List Instr)
  | .inBlock block (.unmatched window) => some (block, window)
  | _ => none

/-- Generation may fail, and what the session learned until then stays. -/
abbrev Assembling := ExceptT AssemblyFault (StateM Session)

namespace Assembly

/-- The launcher and the load address. -/
structure Target where
  launcher : Coded Launcher
  load : Int64
  deriving DecidableEq, Repr

def basicLoad : Int64 := 0x0801
def rawLoad : Int64 := 0xc000

def target (opts : Options) (p : Program) : Except AssemblyFault Target :=
  let launcher := opts.launcher.getD p.launcher
  let isBasic := launcher = .known .basic
  let given := if opts.load = 0 then p.load else opts.load
  let load := if given = 0 then (if isBasic then basicLoad else rawLoad) else given
  if isBasic && load != basicLoad then .error (.loadAddress load) else .ok ⟨launcher, load⟩

/-- The label of a literal, which joins the pool. -/
def pooled (x : Double) : Assembling (Option Text) :=
  modifyGet fun s =>
    let (label, pool) := s.pool.add x
    (label, { s with pool })

def collectDecl (block : Text) (d : Decl) : Assembling Unit :=
  match d.isConst && d.type = .known .float, d.value with
  | true, some v => do
    if (← pooled v.toDouble).isNone then throw (.badConstant block d.name)
  | _, _ => return

def collectInstr (block : Text) (x : Instr) : Assembling Unit :=
  match x.arg with
  | some v => do
    if x.is .pushFloat || v.isFloat then
      if (← pooled v.toDouble).isNone then throw (.badLiteral block x.op)
  | none => return

/-- All float literals in the order in which they are met: block by block, declarations before
code. -/
def collectFloats (blocks : List Block) : Assembling Unit :=
  blocks.forM fun b => do
    b.decls.forM (collectDecl b.name)
    b.code.forM (collectInstr b.name)

def start (opts : Options) (t : Target) : Text :=
  match t.launcher with
  | .known .basic =>
    "; ---- basic program with sys call ----\n" ++ "* = " ++ hex t.load ++ "\n" ++
    "\t.word  (+), " ++ Text.ofInt opts.basicLine ++ "\n" ++
    "\t.null  $9e, format(' %d ', _tg_entrypoint), $3a, $8f, ' tassgen'\n" ++
    "+\t.word  0\n" ++
    "_tg_entrypoint\t; assembly code starts here\n\n" ++
    "\tjsr  c64utils.init_system\n"
  | .known .prg =>
    "; ---- program without sys call ----\n" ++ "* = " ++ hex t.load ++ "\n\n" ++
    "\tjsr  c64utils.init_system\n"
  | _ => "; ---- raw assembler program ----\n" ++ "* = " ++ hex t.load ++ "\n\n"

def header (opts : Options) (name : Text) (t : Target) : Text :=
  "; 6502 assembly code for '" ++ name ++ "'\n" ++
  "; generated by tassgen\n" ++
  "; assembler syntax is for the 64tasm cross-assembler\n" ++
  "; output options: launcher=" ++ t.launcher.launcherName ++ " load=" ++ hex t.load ++ "\n" ++
  "\n.cpu  '6502'\n.enc  'none'\n\n" ++
  start opts t ++
  "\tldx  #$ff\t; init estack pointer\n" ++
  "\tclc\n" ++
  "\tjmp  main.start\t; jump to program entrypoint\n\n"

/-- A constant as a symbol: an integer, or the label of a literal. -/
def symbolLine (d : Decl) (v : Value) : ExceptT SymbolFault (StateM Session) Text := do
  let value ← match d.type, v with
    | .known .float, _ =>
      match ← modifyGet fun s =>
          let (label, pool) := s.pool.add v.toDouble
          (label, { s with pool }) with
      | some label => pure label
      | none => throw (.badFloat d.name)
    | type, .float _ => throw (.floatValue d.name v type)
    | _, .int n => pure (hex n)
  return "\t" ++ d.name ++ " = " ++ value ++ "\n"

/-- The symbols of a block in the order of the declarations. -/
def symbolTexts : List Decl → ExceptT SymbolFault (StateM Session) Text
  | [] => return []
  | d :: ds =>
    match d.isSymbol, d.value with
    | true, some v => do
      let line ← symbolLine d v
      let lines ← symbolTexts ds
      return line ++ lines
    | _, _ => symbolTexts ds

def variableTexts (sets : Charsets) (heap : Heap) : List Decl → Except BlockFault Text
  | [] => .ok []
  | d :: ds =>
    match d.storage sets heap with
    | .error fault => .error (.storage d.name fault)
    | .ok lines => do
      let rest ← variableTexts sets heap ds
      return lines.flatMap DataLine.text ++ rest

/-- The fragments of the code of a block, each counted. -/
def codeText (c : Catalog) (b : Block) : Assembling Text := do
  let s ← c.selectAll (some b.short) b.code
  modify fun t => { t with tally := s.fragments.foldl (fun t f => t.add f.name) t.tally }
  match s.defect, s.rest with
  | some d, _ => throw (.defect d)
  | none, [] => return s.fragments.flatMap Fragment.output
  | none, rest => throw (.inBlock b.name (.unmatched (rest.take c.window.toNat)))

/-- A block with an address of its own must not start before the code ahead of it ends. -/
def blockStart (b : Block) : Text :=
  let a := hex b.address
  "\n; ---- block: '" ++ b.short ++ "' ----\n" ++
  (if b.isPinned then
    ".cerror * > " ++ a ++ ", 'block address overlaps by ', *-" ++ a ++ ",' bytes'\n" ++
    "* = " ++ a ++ "\n"
  else []) ++
  b.short ++ "\t.proc\n\n"

def blockText (opts : Options) (heap : Heap) (b : Block) : Assembling Text := do
  let symbols ← (symbolTexts b.decls).adapt fun fault => .inBlock b.name (.symbol fault)
  let storage ← ExceptT.mk <| pure <|
    (variableTexts opts.charsets heap b.stored).mapError (.inBlock b.name)
  let code ← codeText opts.catalog b
  return blockStart b ++
    "\n; memdefs and kernel subroutines\n" ++ symbols ++
    "\n; variables\n" ++ storage ++ "\n" ++
    code ++ "\n\t.pend\n\n"

def blockTexts (opts : Options) (heap : Heap) : List Block → Assembling Text
  | [] => return []
  | b :: bs => do
    let first ← blockText opts heap b
    let rest ← blockTexts opts heap bs
    return first ++ rest

/-- The literals from number `k` on. -/
def poolLines : (k : Nat) → List Double → Except FiveByte.Overflow Text
  | _, [] => .ok []
  | k, x :: xs => do
    let line ← Storage.floatLine (FloatPool.label k) x
    let lines ← poolLines (k + 1) xs
    return line.text ++ lines

def poolText (p : FloatPool) : Except FiveByte.Overflow Text := do
  if p.values.isEmpty then return []
  else return "\n; ---- float constants ----\n" ++ (← poolLines 0 p.values)

end Assembly

open Assembly in
/-- The whole assembly of a program. -/
def Program.assemble (opts : Options) (p : Program) (heap : Heap) : Assembling Text := do
  let p ← ExceptT.mk (pure (p.rename.mapError .naming))
  let t ← ExceptT.mk (pure (target opts p))
  modify fun s => { s with pool := .empty, breakpoints := 0 }
  collectFloats p.blocks
  let blocks ← blockTexts opts heap p.blocks
  let pool ← ExceptT.mk (pure ((poolText (← get).pool).mapError .literal))
  return peephole (header opts p.name t ++ blocks ++ pool)

end Stack6502
