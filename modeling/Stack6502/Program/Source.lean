import Stack6502.Program.Basic
import Stack6502.Program.InstrText

/-!
# Programs as decoded

The fields of a program before they are checked. Instructions are those that some text gives; the
rest may be anything. A decoder finds the fields in the text of a document.
-/
namespace Stack6502

structure DeclSource where
  name : Text := []
  type : Text := []
  value : Option Value := none
  heap : Int64 := 0
  isConst : Bool := false
  deriving DecidableEq, Repr

/-- An instruction that is read from a text. -/
abbrev WrittenInstr := { x : Instr // ∃ t, Instr.parse t = .ok x }

structure BlockSource where
  name : Text := []
  short : Text := []
  address : Option Value := none
  decls : List DeclSource := []
  code : List WrittenInstr := []
  deriving DecidableEq, Repr

structure PayloadSource where
  str : Text := []
  array : List Value := []
  floats : List Double := []
  deriving DecidableEq, Repr

structure ProgramSource where
  name : Text := []
  launcher : Text := []
  load : Option Value := none
  blocks : List BlockSource := []
  heap : List (Int64 × PayloadSource) := []
  deriving DecidableEq, Repr

inductive SourceFault
  /-- The text is malformed, or something in it has the wrong type. -/
  | document
  | instr (line : Nat) (fault : InstrFault)
  | instrExpected (line : Nat)
  | scalarExpected (line : Nat)
  | badNumber (literal : Text)
  deriving DecidableEq, Repr

/-- How the text of a document is decoded. -/
class Decoder where
  decode : Text → Except SourceFault ProgramSource

end Stack6502
