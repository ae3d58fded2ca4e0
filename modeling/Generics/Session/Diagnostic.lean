import Generics.Error
import Generics.Position

/-!
# Diagnostics

A diagnostic ties a problem to the construct that caused it.
-/

namespace Generics

/-- The construct that something belongs to, such as `fn max`, and where it was written. -/
structure Origin where
  construct : String
  position : Option Position := none
deriving DecidableEq, Repr

/-- What went wrong: an error of the program, or something else that can only be told in words. -/
inductive Problem where
  | coded (e : Error)
  | plain (text : String)
deriving DecidableEq, Repr

namespace Problem

/-- The wording of a problem. An error of the program has its label in front. -/
def labelled : Problem → String
  | coded e => e.labelled
  | plain text => text

/-- The problem is an error of the program. -/
def isCoded : Problem → Bool
  | coded _ => true
  | plain _ => false

end Problem

/-- A problem and the construct that caused it. -/
structure Diagnostic where
  origin : Origin
  problem : Problem
deriving DecidableEq, Repr

/-- The diagnostic without its place. -/
def Diagnostic.render (d : Diagnostic) : String := s!"{d.origin.construct}: {d.problem.labelled}"

end Generics
