import Stack6502.Program.Basic

/-!
# Listings

Programs as text: one line for each declaration and instruction, indented by tabs. A label stands
one step to the left of the code, and inline assembly one step to the right.
-/
namespace Stack6502

/-- A line of a listing, `depth` tabs deep. -/
def listingLine (depth : Nat) (t : Text) : Text :=
  List.replicate depth Text.tab ++ t ++ [Text.newline]

namespace Value

/-- A float that would read back as an integer is marked as a float. -/
def listing : Value → Text
  | .int v => Text.ofInt v.toInt
  | .float x =>
    let t := x.text .value
    if t.any fun b => (".eEIN" : Text).contains b then t else t ++ ".0"

end Value

namespace Instr

/-- Names first, then values, each after a space. -/
def operandsListing (x : Instr) : Text :=
  let names := [x.sym, x.sym2].filter (!·.isEmpty)
  let values := [x.arg, x.arg2].filterMap (·.map Value.listing)
  (names ++ values).flatMap (Text.space :: ·)

def listing (depth : Nat) (x : Instr) : Text :=
  match x.op with
  | .known .label => listingLine (depth - 1) (x.sym ++ ":")
  | .known .inlineAssembly =>
    listingLine depth x.op.opcodeName ++
      (x.sym.splitOn Text.newline).flatMap (listingLine (depth + 1))
  | .known .line => listingLine depth (x.op.opcodeName ++ " " ++ x.sym)
  | _ => listingLine depth (x.op.opcodeName ++ x.operandsListing)

/-- The listing of one instruction without the last newline. -/
def text (x : Instr) : Text := (x.listing 0).dropLast

end Instr

/-- One instruction after another. -/
def codeListing (depth : Nat) (code : List Instr) : Text := code.flatMap (Instr.listing depth)

def Decl.listing (depth : Nat) (d : Decl) : Text :=
  let value := match d.value with
    | some v => " = " ++ v.listing
    | none => []
  let heap : Text := if d.heap = 0 then [] else " heap " ++ Text.ofInt d.heap.toInt
  listingLine depth ((if d.isConst then "const " else "var ") ++ d.type.typeName ++ " " ++ d.name
    ++ value ++ heap)

def Block.listing (depth : Nat) (b : Block) : Text :=
  let short : Text := if b.short.isEmpty || b.short = b.name then [] else " (" ++ b.short ++ ")"
  let address : Text := if b.isPinned then " @ $" ++ hex4 b.address else []
  let gap : Text := if b.decls.isEmpty || b.code.isEmpty then [] else [Text.newline]
  listingLine depth ("block " ++ b.name ++ short ++ address ++ " \x7b")
    ++ b.decls.flatMap (Decl.listing (depth + 1)) ++ gap ++ codeListing (depth + 1) b.code
    ++ listingLine depth "\x7d"

def Program.listing (p : Program) : Text :=
  let load : Text := if p.load = 0 then [] else " load $" ++ hex4 p.load
  listingLine 0 ("program " ++ p.name ++ " launcher " ++ p.launcher.launcherName ++ load)
    ++ p.blocks.flatMap fun b => Text.newline :: b.listing 0

end Stack6502
