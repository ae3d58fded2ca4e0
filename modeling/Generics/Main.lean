import Generics.Command.Check

/-!
# Command line

`check` is the only command. Failures are written to the standard error.
-/

namespace Generics.Command

/-- The depth to which checks of bounds recurse. -/
def depth : Nat := 1000000

/-- The reason why a file cannot be read. -/
def reasonOf (path : String) : IO.Error → String
  | .noFileOrDirectory .. => s!"open {path}: no such file or directory"
  | .permissionDenied .. => s!"open {path}: permission denied"
  | .inappropriateType .. => s!"read {path}: is a directory"
  | e => s!"open {path}: {e}"

/-- The content of a file. -/
def contents (path : String) : IO (Except String ByteArray) := do
  match ← (IO.FS.readBinFile path).toBaseIO with
  | .ok bytes => return .ok bytes
  | .error e => return .error (reasonOf path e)

/-- The world of a process. -/
def process : IO (World IO) := do
  let out ← IO.getStdout
  return { contents := contents, print := fun s => out.putStr s, isTerminal := ← out.isTty }

end Generics.Command

open Generics.Command in
def main (args : List String) : IO UInt32 := do
  match args with
  | "check" :: args =>
    match ← (check (← process) depth args).run with
    | .ok () => return 0
    | .error failure =>
      IO.eprintln s!"Error: {failure.message}"
      return 1
  | _ =>
    IO.eprintln "Error: expected the command check"
    return 1
