import Stack6502.Number.Double
import Stack6502.Text.Basic

/-!
# What a generation carries along

Float literals share labels over a whole program, breakpoints are numbered, and the use of each
pattern is counted.
-/
namespace Stack6502

/-- Float literals in the order of their labels. Literals differ if their bits do. -/
structure FloatPool where
  values : List Double
  deriving DecidableEq, Repr

namespace FloatPool

def empty : FloatPool := ⟨[]⟩

def label (k : Nat) : Text := "tg_const_float_" ++ Text.ofNat k

/-- The label of a literal, which joins the pool if it is new. A NaN has none. -/
def add (pool : FloatPool) (x : Double) : Option Text × FloatPool :=
  if x.isNaN then (none, pool)
  else match pool.values.idxOf? x with
    | some k => (some (label k), pool)
    | none => (some (label pool.values.length), ⟨pool.values ++ [x]⟩)

end FloatPool

/-- How often each name was counted, in the order in which the names first came. -/
structure Tally where
  counts : List (Text × Nat)
  deriving DecidableEq, Repr

namespace Tally

def empty : Tally := ⟨[]⟩

def count (t : Tally) (name : Text) : Nat := (t.counts.lookup name).getD 0

/-- `n` more of `name`. -/
def addTo (name : Text) (n : Nat) : List (Text × Nat) → List (Text × Nat)
  | [] => [(name, n)]
  | (other, k) :: rest =>
    if other = name then (name, k + n) :: rest else (other, k) :: addTo name n rest

def add (t : Tally) (name : Text) : Tally := ⟨addTo name 1 t.counts⟩

def merge (t u : Tally) : Tally :=
  ⟨u.counts.foldl (fun counts (name, n) => addTo name n counts) t.counts⟩

def total (t : Tally) : Nat := (t.counts.map (·.2)).foldr (· + ·) 0

end Tally

structure Session where
  pool : FloatPool
  breakpoints : Nat
  tally : Tally
  deriving DecidableEq, Repr

def Session.start : Session := ⟨.empty, 0, .empty⟩

end Stack6502
