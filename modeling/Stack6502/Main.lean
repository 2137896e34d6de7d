import Stack6502.Command.Run

/-!
# The program

Runs the command on the files of the system.
-/
namespace Stack6502

/-- The problem that an error of the system stands for, by its number. -/
def fileProblem (e : IO.Error) : FileProblem :=
  match e with
  | .noFileOrDirectory .. => .notFound
  | .inappropriateType _ code _ => if code = 21 then .isDirectory else .notDirectory
  | .invalidArgument _ code _ => if code = 36 then .nameTooLong else .invalidName
  | _ => .notFound

/-- Paths that are no texts of the system are not found. -/
def pathString (path : Text) : String :=
  match String.fromUTF8? ⟨path.toArray⟩ with
  | some s => s
  | none => ""

instance : FileAccess IO where
  read path := do
    try
      let bytes ← IO.FS.readBinFile (pathString path)
      return .ok bytes.toList
    catch e =>
      let problem := fileProblem e
      return .error ⟨if problem = .isDirectory then .reading else .opening, path, problem⟩
  write path content := do
    try
      IO.FS.writeBinFile (pathString path) ⟨content.toArray⟩
      return .ok ()
    catch e => return .error ⟨.opening, path, fileProblem e⟩

end Stack6502

open Stack6502 in
def main (args : List String) : IO UInt32 := do
  let outcome ← runCommand (args.map Text.ofString)
  (← IO.getStdout).write ⟨outcome.stdout.toArray⟩
  (← IO.getStderr).write ⟨outcome.stderr.toArray⟩
  return UInt32.ofNat outcome.code
