import Generics.Command.Options
import Generics.Manifest.Printer

/-!
# The check command

Reads manifests, checks them and prints a report for each. What is outside the program, files and the
place that is printed to, is given by its operations, so that the command runs in every monad.
-/

namespace Generics.Command

open Text

/-- What the command needs from outside. -/
structure World (m : Type → Type) where
  /-- The content of a file, or the reason why there is none. -/
  contents : String → m (Except String ByteArray)
  print : String → m Unit
  /-- Someone looks at what is printed. -/
  isTerminal : Bool

/-- Why the command fails. -/
inductive Failure where
  | options (e : OptionsError)
  | noPaths
  | colorMode (mode : String)
  | unreadable (path reason : String)
  | manifest (e : ManifestError)
  /-- A check needs to recurse deeper than it may. -/
  | undecided (path : String)
  /-- Some of the manifests have errors. -/
  | failed (count total : Nat)

/-- The wording of a failure. -/
def Failure.message : Failure → String
  | options e => e.message
  | noPaths => "requires at least 1 arg(s), only received 0"
  | colorMode mode => s!"unknown color mode {quote mode}, expected auto, always or never"
  | unreadable path reason => s!"reading manifest {path}: {reason}"
  | manifest e => e.message
  | undecided path => s!"checking manifest {path}: bounds are nested too deep"
  | failed count total => s!"{count} of {total} manifests have errors"

/-- Styles are used in the given mode. -/
def useColor (isTerminal : Bool) (mode : String) : Except Failure Bool :=
  match mode with
  | "always" => .ok true
  | "never" => .ok false
  | "auto" => .ok isTerminal
  | _ => .error (.colorMode mode)

/-- The manifest in a file. Bytes that are no text are no manifest. -/
def parseBytes (path : String) (bytes : ByteArray) : Except ManifestError Manifest :=
  match String.fromUTF8? bytes with
  | some text => Manifest.parse path text
  | none => .error (.malformed path)

variable {m : Type → Type} [Monad m]

/-- Checks a manifest and prints its report. Says whether it has errors. -/
def checkPath (w : World m) (depth : Nat) (color : Bool) (path : String) : ExceptT Failure m Bool := do
  match ← w.contents path with
  | .error reason => throw (.unreadable path reason)
  | .ok bytes =>
    match parseBytes path bytes with
    | .error e => throw (.manifest e)
    | .ok manifest =>
      match manifest.check depth with
      | none => throw (.undecided path)
      | some report =>
        w.print (report.render color)
        return report.hasErrors

/-- Checks manifests one after the other and counts those with errors. -/
def checkPaths (w : World m) (depth : Nat) (color : Bool) : List String → ExceptT Failure m Nat
  | [] => return 0
  | path :: paths => do
    let bad ← checkPath w depth color path
    let count ← checkPaths w depth color paths
    return if bad then count + 1 else count

/-- Runs the command. -/
def check (w : World m) (depth : Nat) (args : List String) : ExceptT Failure m Unit := do
  match Options.read {} args with
  | .error e => throw (.options e)
  | .ok o =>
    if o.help then w.print helpText
    else if o.paths.isEmpty then throw .noPaths
    else
      let color ← ExceptT.mk (pure (useColor w.isTerminal o.color))
      let count ← checkPaths w depth color o.paths
      if 0 < count then throw (.failed count o.paths.length)

end Generics.Command
