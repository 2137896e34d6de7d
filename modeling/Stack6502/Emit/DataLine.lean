import Stack6502.Program.Value
import Stack6502.Text.Blank

/-!
# Data lines

A data line has an optional label, a directive that starts with a dot, values between commas, and
an optional comment. `Directive.read` gives the directive and the integers back.
-/
namespace Stack6502

inductive DataLine
  /-- A label on its own. -/
  | heading (name : Text) (comment : Option Text)
  | values (label directive : Text) (args : List Text) (comment : Option Text)
  deriving DecidableEq, Repr

def DataLine.text : DataLine → Text
  | .heading name comment =>
    name ++ (match comment with
      | none => []
      | some c => "\t; " ++ c) ++ [Text.newline]
  | .values label directive args comment =>
    label ++ [Text.tab] ++ directive ++ "  " ++ Text.join ", " args ++ (match comment with
      | none => []
      | some c => "  ; " ++ c) ++ [Text.newline]

inductive DirectiveFault
  | noDirective
  | badNumber (literal : Text)
  | float (literal : Text)
  deriving DecidableEq, Repr

def DirectiveFault.message : DirectiveFault → Text
  | .noDirective => "no directive"
  | .badNumber literal => "value " ++ literal.quoted ++ ": " ++ Value.badNumber literal
  | .float literal => "unexpected float: " ++ literal.quoted

structure Directive where
  name : Text
  values : List Int64
  deriving DecidableEq, Repr

namespace Directive

def readValues : List Text → Except DirectiveFault (List Int64)
  | [] => .ok []
  | literal :: rest =>
    match Value.parse? literal with
    | none => .error (.badNumber literal)
    | some (.float _) => .error (.float literal)
    | some (.int v) => do
      let vs ← readValues rest
      return v :: vs

/-- What stands before the first word with a leading dot is a label. Blanks between the arguments
do not count. -/
def read (line : Text) : Except DirectiveFault Directive :=
  let words := (line.cut (Text.byte ';')).1.words
  match words.dropWhile (!Text.startsWith "." ·) with
  | [] => .error .noDirective
  | name :: rest =>
    let args := rest.flatten
    if args.isEmpty then .ok ⟨name, []⟩
    else do
      let values ← readValues (args.splitOn (Text.byte ','))
      return ⟨name, values⟩

end Directive

end Stack6502
