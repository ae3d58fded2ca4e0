import Generics.Region.Basic
import Generics.Text.Blank
import Generics.Text.Quoted

/-!
# Written region constraints

A constraint is written `'a: 'b` if `'a` outlives `'b`, `'a == 'b` if they are equal, and `T: 'a` if
every region of the type `T` outlives `'a`.
-/

namespace Generics

open Text

/-- A region constraint whose type is still a text. -/
inductive WrittenConstraint where
  | outlives (longer shorter : Region)
  | equal (a b : Region)
  | typeOutlives (type : String) (region : Region)
deriving DecidableEq, Repr

namespace WrittenConstraint

/-- The characters that do not stand in the name of a region. -/
def notInRegion : List Char := [' ', '\t', ',', '<', '>', '(', ')', '&']

/-- The text names a region. -/
def isRegion (cs : List Char) : Bool :=
  match cs with
  | '\'' :: _ :: _ => cs.all fun c => !notInRegion.contains c
  | _ => false

/-- Splits a text around the first `==`. -/
def splitEqual? : List Char → Option (List Char × List Char)
  | '=' :: '=' :: cs => some ([], cs)
  | c :: cs => (splitEqual? cs).map fun (lhs, rhs) => (c :: lhs, rhs)
  | [] => none

/-- Splits a text around the last colon. -/
def splitLastColon? (cs : List Char) : Option (List Char × List Char) :=
  let rhs := (cs.reverse.takeWhile (· ≠ ':')).reverse
  match (cs.reverse.dropWhile (· ≠ ':')) with
  | [] => none
  | _ :: lhs => some (lhs.reverse, rhs)

/-- The region of a name. -/
def regionOf (cs : List Char) : Region := ⟨String.ofList cs⟩

/-- Reads a constraint, or says what is wrong with it. -/
def parse (text : String) : Except String WrittenConstraint :=
  let fails (reason : String) := Except.error s!"constraint {quote text}: {reason}"
  match splitEqual? text.toList with
  | some (lhs, rhs) =>
    let lhs := trimChars lhs
    let rhs := trimChars rhs
    if isRegion lhs && isRegion rhs then .ok (.equal (regionOf lhs) (regionOf rhs))
    else fails "both sides of == must be regions"
  | none =>
    match splitLastColon? text.toList with
    | none => fails "expected \x60a: b\x60 or \x60a == b\x60"
    | some (lhs, rhs) =>
      let lhs := trimChars lhs
      let rhs := trimChars rhs
      if !isRegion rhs then fails "the right side must be a region"
      else if isRegion lhs then .ok (.outlives (regionOf lhs) (regionOf rhs))
      else .ok (.typeOutlives (String.ofList lhs) (regionOf rhs))

end WrittenConstraint

end Generics
