import Stack6502.Text.Basic

/-!
# Paths

Paths are texts with slashes between names. Cleaning a path drops empty names and single dots, and
lets a pair of dots take back the name before it.
-/
namespace Stack6502.Path

def slash : UInt8 := Text.byte '/'

def isRooted (p : Text) : Bool := p.head? == some slash

def names (p : Text) : List Text := p.splitOn slash

def dot : Text := "."

def dots : Text := ".."

/-- Puts a name on those before it, the last one first. At the root there is nothing above. -/
def push (rooted : Bool) (before : List Text) (name : Text) : List Text :=
  if name.isEmpty || name = dot then before
  else if name = dots then
    match before with
    | last :: rest => if last = dots then dots :: before else rest
    | [] => if rooted then [] else [dots]
  else name :: before

def clean (p : Text) : Text :=
  let rooted := isRooted p
  let body := Text.join [slash] ((names p).foldl (push rooted) []).reverse
  if rooted then slash :: body else if body.isEmpty then dot else body

/-- The path of `name` in a directory, cleaned. -/
def join (dir name : Text) : Text :=
  clean (if dir.isEmpty then name else if name.isEmpty then dir else dir ++ [slash] ++ name)

end Stack6502.Path
