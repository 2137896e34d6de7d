import Stack6502.Command.Flags

/-!
# Usage

What a command is for and what it takes, and the help that shows it.
-/
namespace Stack6502

structure Usage where
  name : String
  description : String
  takesArgs : Bool
  flags : List Flag
  deriving DecidableEq, Repr

namespace Usage

/-- A name and what it is for. -/
def helpLine (name description : Text) : Text :=
  "    " ++ name.padRight 20 Text.space ++ " - " ++ description ++ "\n"

/-- A flag with the value that it has. -/
def flagLine (f : Flag) : Text :=
  let letter : Text := f.letter.elim [] fun l => "," ++ Text.ofString l
  let v := f.value.render
  let shown : Text := if v.isEmpty then [] else " (default " ++ v ++ ")"
  helpLine (f.name ++ letter ++ f.hint) (f.description ++ shown)

def commandLine (u : Usage) : Text := helpLine (Text.ofString u.name) (Text.ofString u.description)

/-- Lines under a title, if there are any. -/
def paragraph (title : Text) (lines : List Text) : Text :=
  if lines.isEmpty then [] else "\n" ++ title ++ "\n" ++ lines.flatten

/-- The help for a command with its subcommands, and for the flags of the command above it. -/
def help (u : Usage) (subcommands : List Usage) (parent : Text) (a : Arguments) : Text :=
  let takes : Text := if u.takesArgs then " [flags_and_args]" else " [flags]"
  u.name ++ takes ++ " - " ++ u.description ++ "\n"
    ++ paragraph "Subcommands" (subcommands.map commandLine)
    ++ paragraph "Flags" (a.own.map flagLine)
    ++ paragraph ("Flags of parent command " ++ parent) (a.inherited.map flagLine)

end Usage

end Stack6502
