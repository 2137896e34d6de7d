import Stack6502.Command.Generate
import Stack6502.Command.Table
import Stack6502.Command.Usage
import Stack6502.Program.Document

/-!
# The command

Subcommands generate assembly from program files, list programs, list the patterns of selection
and check that every opcode has code.
-/
namespace Stack6502

/-- What a run leaves: its exit code and its two outputs. -/
structure Outcome where
  code : Nat
  stdout : Text
  stderr : Text
  deriving DecidableEq, Repr

namespace Command

def done (stdout : Text) : Outcome := ⟨0, stdout, []⟩

def failed (stdout message : Text) : Outcome := ⟨1, stdout, "error: " ++ message ++ "\n"⟩

/-- More frequent names first, then by name. -/
def usageOrder (a b : Text × Nat) : Bool :=
  if a.2 = b.2 then !Text.less b.1 a.1 else b.2 < a.2

def usageTable (t : Tally) : Table :=
  { title := "Rule usage"
    header := ["Rule", "Used"]
    rows := (t.counts.mergeSort usageOrder).map fun (name, n) => [.text name, .number n]
    footer := ["total", Text.ofNat t.total] }

def opcodeNames (ops : List Opcode) : Text :=
  Text.join " " (ops.map fun op => Text.ofString op.name)

def ruleRow (r : Rule) : List TableCell :=
  let alt : Text := if r.alt.isEmpty then [] else "\n" ++ opcodeNames r.alt
  [.text "rule", .text r.name, .number r.size, .text (opcodeNames r.seq ++ alt)]

def idiomRow (i : Idiom) : List TableCell :=
  [.text "idiom", .text i.name, .number i.span, .text "same operands"]

def catalogTable (c : Catalog) : Table :=
  { title := "Code selection patterns"
    header := ["#", "Kind", "Name", "Size", "Pattern"]
    rows := (c.idioms.map idiomRow ++ c.rules.map ruleRow).zipIdx.map fun (r, k) => .number k :: r
    footer := [[], [], "window", Text.ofInt c.window, []] }

def missingLine (op : Opcode) : Text := "no translation: " ++ op.name ++ "\n"

def badLine (name : Text) : Text := "bad pattern: " ++ name ++ "\n"

def check (c : Catalog) : Outcome :=
  let missing := Catalog.missing
  let bad := c.bad
  if missing.isEmpty && bad.isEmpty then
    done ("all " ++ Text.ofNat Opcode.all.length ++ " opcodes covered, "
      ++ Text.ofNat c.idioms.length ++ " idioms, " ++ Text.ofNat c.rules.length ++ " rules\n")
  else
    failed (missing.flatMap missingLine ++ bad.flatMap badLine)
      ("check: " ++ Text.ofNat missing.length ++ " opcodes missing, "
        ++ Text.ofNat bad.length ++ " bad patterns")

inductive GenFlagFault
  | launcher (name : Text)
  | load (value : Text)
  | window (n : Int64)
  deriving DecidableEq, Repr

def GenFlagFault.message : GenFlagFault → Text
  | .launcher name => Launcher.unknownMessage name
  | .load value => "bad load address: " ++ value.quoted
  | .window n => "bad window: " ++ Text.ofInt n.toInt

def genUsage : Usage :=
  { name := "gen"
    description := "generate 64tass assembly from ir programs"
    takesArgs := true
    flags :=
      [⟨"out", some "o", "", "output directory", .text "."⟩,
       ⟨"launcher", none, "", "override program launcher: basic, prg or raw", .text []⟩,
       ⟨"load", none, "", "override load address", .text []⟩,
       ⟨"window", none, "", "matcher lookahead window", .int 6⟩,
       ⟨"stats", none, "", "print rule usage statistics", .switch false⟩] }

def launcherFlag (t : Text) : Except GenFlagFault (Option (Coded Launcher)) :=
  if t.isEmpty then .ok none
  else match Launcher.parse? t with
    | some l => .ok (some (.known l))
    | none => .error (.launcher t)

/-- A load address of 16 bits other than zero. -/
def loadFlag (t : Text) : Except GenFlagFault Int64 :=
  if t.isEmpty then .ok 0
  else match Value.parse? t with
    | some (.int v) => if 0 < v && v ≤ 0xffff then .ok v else .error (.load t)
    | _ => .error (.load t)

def windowFlag (n : Int64) : Except GenFlagFault Int :=
  if 0 < n then .ok n.toInt else .error (.window n)

def genOptions (a : Arguments) : Except GenFlagFault Options := do
  let launcher ← launcherFlag (a.text "launcher")
  let load ← loadFlag (a.text "load")
  let window ← windowFlag (a.int "window")
  return { Options.standard with launcher, load, catalog := { Catalog.standard with window } }

variable {m : Type → Type} [Monad m] [FileAccess m] [Decoder]

/-- What was printed and counted while files were generated, and the file that failed. -/
structure GenRun where
  stdout : Text
  tally : Tally
  failure : Option (Text × GenerateFault)

/-- Generates file after file up to the first that fails. -/
def genFiles (opts : Options) (dir : Text) : List Text → Tally → m GenRun
  | [], tally => return ⟨[], tally, none⟩
  | name :: names, tally => do
    let g ← generateFile opts dir name
    let tally := tally.merge (g.tally.getD .empty)
    match g.result with
    | .error fault => return ⟨[], tally, some (name, fault)⟩
    | .ok path =>
      let run ← genFiles opts dir names tally
      return { run with stdout := name ++ " -> " ++ path ++ "\n" ++ run.stdout }

def gen (a : Arguments) : m Outcome := do
  match genOptions a with
  | .error fault => return failed [] ("gen: " ++ fault.message)
  | .ok opts =>
    let run ← genFiles opts (a.text "out") a.rest .empty
    let stats := if a.switch "stats" then (usageTable run.tally).render else []
    let outcome := match run.failure with
      | none => done run.stdout
      | some (name, fault) => failed run.stdout ("gen: generate " ++ name ++ ": " ++ fault.message)
    return { outcome with stderr := outcome.stderr ++ stats }

def dumpUsage : Usage :=
  { name := "dump"
    description := "print ir programs"
    takesArgs := true
    flags :=
      [⟨"renamed", none, "", "print names the way the assembler sees them", .switch false⟩] }

/-- The listings of files up to the first that fails, and its message. -/
def dumpFiles (renamed : Bool) : List Text → m (Text × Option Text)
  | [] => return ([], none)
  | name :: names => do
    match ← readProgram name with
    | .error fault => return ([], some ("load " ++ name ++ ": " ++ fault.message))
    | .ok (p, _) =>
      match if renamed then p.rename else .ok p with
      | .error fault => return ([], some ("rename " ++ name ++ ": " ++ fault.message))
      | .ok p =>
        let (rest, failure) ← dumpFiles renamed names
        return (p.listing ++ rest, failure)

def dump (a : Arguments) : m Outcome := do
  let (stdout, failure) ← dumpFiles (a.switch "renamed") a.rest
  match failure with
  | none => return done stdout
  | some message => return failed stdout ("dump: " ++ message)

def rulesUsage : Usage := ⟨"rules", "list code selection patterns", false, []⟩

def checkUsage : Usage := ⟨"check", "check every opcode has a translation", false, []⟩

inductive Subcommand
  | gen
  | dump
  | rules
  | check
  deriving DecidableEq, Repr

namespace Subcommand

def all : List Subcommand := [.gen, .dump, .rules, .check]

def usage : Subcommand → Usage
  | .gen => genUsage
  | .dump => dumpUsage
  | .rules => rulesUsage
  | .check => checkUsage

def ofName? (name : Text) : Option Subcommand :=
  all.find? fun c => Text.ofString c.usage.name == name

def act : Subcommand → Arguments → m Outcome
  | .gen, a => Command.gen a
  | .dump, a => Command.dump a
  | .rules, _ => return done (catalogTable .standard).render
  | .check, _ => return Command.check .standard

end Subcommand

def topUsage : Usage :=
  { name := "tassgen"
    description := "tassgen is a 6502 code generator for 64tass"
    takesArgs := false
    flags :=
      [⟨"verbosity", some "v", "", "logger verbosity topics: match, dump_ir", .text []⟩,
       ⟨"help", some "h", "=[hidden]", "print command help end exit", .help⟩] }

def topHelp (a : Arguments) : Text := topUsage.help (Subcommand.all.map (·.usage)) [] a

/-- A subcommand with its arguments, after the flags before it. -/
def runSubcommand (c : Subcommand) (inherited : List Flag) (args : List Text) : m Outcome :=
  let u := c.usage
  match Arguments.parse u.takesArgs false args ⟨u.flags, inherited, []⟩ with
  | .error fault => return failed [] (u.name ++ ": " ++ fault.message)
  | .ok (.help a) => return done (u.help [] topUsage.name a)
  | .ok (.act a) => c.act a

/-- Takes flags up to the subcommand. Without one there is help. -/
def run : (skip : Bool) → List Text → Arguments → m Outcome
  | _, [], a => return done (topHelp a)
  | true, _ :: args, a => run false args a
  | false, arg :: args, a =>
    if Flag.isFlag arg then
      match a.takeFlag arg args.head? with
      | .error fault => return failed [] fault.message
      | .ok none => return done (topHelp a)
      | .ok (some (a, isTaken)) => run isTaken args a
    else match Subcommand.ofName? arg with
      | some c => runSubcommand c a.own args
      | none => return failed [] (FlagFault.unexpected arg).message

end Command

/-- Runs the command with its arguments. -/
def runCommand {m : Type → Type} [Monad m] [FileAccess m] [Decoder] (args : List Text) :
    m Outcome :=
  Command.run false args ⟨Command.topUsage.flags, [], []⟩

end Stack6502
