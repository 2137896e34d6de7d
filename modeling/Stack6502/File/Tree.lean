import Stack6502.File.Path

/-!
# File trees

Files and directories as data, seen from a current directory. The directories above the current
one exist, and nothing else is known of them.
-/
namespace Stack6502

inductive FileAction
  | opening
  | reading
  deriving DecidableEq, Repr

inductive FileProblem
  | notFound
  | notDirectory
  | isDirectory
  | nameTooLong
  | invalidName
  deriving DecidableEq, Repr

structure FileFault where
  action : FileAction
  path : Text
  problem : FileProblem
  deriving DecidableEq, Repr

def FileProblem.message : FileProblem → Text
  | .notFound => "no such file or directory"
  | .notDirectory => "not a directory"
  | .isDirectory => "is a directory"
  | .nameTooLong => "file name too long"
  | .invalidName => "invalid argument"

def FileFault.message (f : FileFault) : Text :=
  (match f.action with
    | .opening => "open "
    | .reading => "read ") ++ f.path ++ ": " ++ f.problem.message

/-- The names that lead to a file or directory from the current one. Pairs of dots stand in front
only, and a lone slash stands for the root. -/
abbrev Location := List Text

inductive FileEntry
  | dir
  | file (content : Text)
  deriving DecidableEq, Repr

structure FileTree where
  entries : List (Location × FileEntry)
  deriving DecidableEq, Repr

namespace FileTree

def empty : FileTree := ⟨[]⟩

def root : Location := [[Path.slash]]

/-- The current directory and those above it. -/
def isAbove (l : Location) : Bool := l = root || l.all (· = Path.dots)

def entry? (t : FileTree) (l : Location) : Option FileEntry :=
  if isAbove l then some .dir else t.entries.lookup l

def parent (l : Location) : Location :=
  if l = root then root
  else if l.all (· = Path.dots) then l ++ [Path.dots]
  else l.dropLast

/-- The longest name and the longest path there may be, in bytes. -/
def maxName : Nat := 255
def maxPath : Nat := 4095

/-- One step from a place, which must be a directory. -/
def step (t : FileTree) (l : Location) (name : Text) : Except FileProblem Location :=
  match t.entry? l with
  | none => .error .notFound
  | some (.file _) => .error .notDirectory
  | some .dir =>
    if name.isEmpty || name = Path.dot then .ok l
    else if name = Path.dots then .ok (parent l)
    else if maxName < name.length then .error .nameTooLong
    else .ok (l ++ [name])

def walk (t : FileTree) : Location → List Text → Except FileProblem Location
  | l, [] => .ok l
  | l, name :: names => do
    let l ← t.step l name
    t.walk l names

/-- The place a path leads to. All but the last name must exist. -/
def locate (t : FileTree) (path : Text) : Except FileProblem Location :=
  if path.isEmpty then .error .notFound
  else if path.contains 0 then .error .invalidName
  else if maxPath < path.length then .error .nameTooLong
  else t.walk (if Path.isRooted path then root else []) (Path.names path)

def read (t : FileTree) (path : Text) : Except FileFault Text :=
  match t.locate path with
  | .error problem => .error ⟨.opening, path, problem⟩
  | .ok l =>
    match t.entry? l with
    | none => .error ⟨.opening, path, .notFound⟩
    | some .dir => .error ⟨.reading, path, .isDirectory⟩
    | some (.file content) => .ok content

/-- The tree with another entry at a place. -/
def setEntry (e : FileEntry) (l : Location) :
    List (Location × FileEntry) → List (Location × FileEntry)
  | [] => [(l, e)]
  | (m, f) :: rest => if m = l then (l, e) :: rest else (m, f) :: setEntry e l rest

def set (t : FileTree) (l : Location) (e : FileEntry) : FileTree := ⟨setEntry e l t.entries⟩

/-- Writes a whole file, which is created if need be. -/
def write (t : FileTree) (path content : Text) : Except FileFault FileTree :=
  match t.locate path with
  | .error problem => .error ⟨.opening, path, problem⟩
  | .ok l =>
    match t.entry? l with
    | some .dir => .error ⟨.opening, path, .isDirectory⟩
    | _ => .ok (t.set l (.file content))

/-- A directory with those that lead to it. -/
def addDirs (t : FileTree) (names : List Text) : FileTree :=
  (names.length + 1).fold (fun n _ t =>
    let l := names.take n
    if (t.entry? l).isNone then t.set l .dir else t) t

/-- The directory at a clean path below the current one. -/
def addDir (t : FileTree) (path : Text) : FileTree := t.addDirs (Path.names (Path.clean path))

/-- The file at a clean path below the current directory. -/
def addFile (t : FileTree) (path content : Text) : FileTree :=
  let names := Path.names (Path.clean path)
  (t.addDirs names.dropLast).set names (.file content)

/-- Files below the current directory that are new or other than `before`. -/
def changes (before after : FileTree) : List (Text × Text) :=
  after.entries.filterMap fun (l, e) =>
    match e with
    | .file content =>
      if before.entry? l = some e || l.head? = some Path.dots || l.head? = some [Path.slash]
      then none
      else some (Text.join [Path.slash] l, content)
    | .dir => none

end FileTree

/-- Reading and writing whole files by path. -/
class FileAccess (m : Type → Type) where
  read : (path : Text) → m (Except FileFault Text)
  write : (path content : Text) → m (Except FileFault Unit)

instance : FileAccess (StateM FileTree) where
  read path := do return (← get).read path
  write path content := modifyGet fun t =>
    match t.write path content with
    | .ok t => (.ok (), t)
    | .error fault => (.error fault, t)

end Stack6502
