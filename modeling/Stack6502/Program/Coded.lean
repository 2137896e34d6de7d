/-!
# Numbered fields

Opcodes, data types and launchers are numbered, and a field may hold a number that names none.
-/
namespace Stack6502

/-- A field that names an `α`, or a number out of range. -/
inductive Coded (α : Type)
  | known (a : α)
  | stray (n : Int)
  deriving DecidableEq, Repr

/-- The field holding the number `n` when the names are numbered as listed. -/
def Coded.ofIndex {α : Type} (all : List α) (n : Int) : Coded α :=
  if n < 0 then .stray n
  else match all[n.toNat]? with
    | some a => .known a
    | none => .stray n

end Stack6502
