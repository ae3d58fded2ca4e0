/-!
# Errors

The twenty things that can be wrong with a program, each with its number and its wording. The fields
hold the texts that the wording shows.
-/

namespace Generics

/-- What is wrong with a program. -/
inductive Error where
  | infiniteType (var type : String)
  | boundNotSatisfied (type bound reason : String)
  | capabilityNotFound (name : String)
  | conflictingImplementation (capability type existing : String)
  | conflictingCapability (name : String)
  | aliasNotFound (name : String)
  | cyclicAlias (name : String)
  | recursionDepthExceeded (name : String) (limit : Int) (chain : List String)
  | invalidAlias (name reason : String)
  | typeMismatch (expected found context : String)
  | solverIterationLimit (limit pending : Int)
  | unknownLifetimeBound (region bound : String)
  | regionBoundNotSatisfied (region bound : String)
  | regionConstraintViolated (longer shorter : String)
  | missingRegion (function : String) (inputs : Int)
  | constEval (expr reason : String)
  | missingConstParameter (owner param : String)
  | unknownAssociatedType (capability name : String)
  | missingAssociatedType (capability type name : String)
  | malformedType (text reason : String)
deriving DecidableEq, Repr, Inhabited

namespace Error

/-- The number of an error, from 1. -/
def code : Error → Nat
  | infiniteType .. => 1
  | boundNotSatisfied .. => 2
  | capabilityNotFound .. => 3
  | conflictingImplementation .. => 4
  | conflictingCapability .. => 5
  | aliasNotFound .. => 6
  | cyclicAlias .. => 7
  | recursionDepthExceeded .. => 8
  | invalidAlias .. => 9
  | typeMismatch .. => 10
  | solverIterationLimit .. => 11
  | unknownLifetimeBound .. => 12
  | regionBoundNotSatisfied .. => 13
  | regionConstraintViolated .. => 14
  | missingRegion .. => 15
  | constEval .. => 16
  | missingConstParameter .. => 17
  | unknownAssociatedType .. => 18
  | missingAssociatedType .. => 19
  | malformedType .. => 20

/-- The wording of an error. -/
def message : Error → String
  | infiniteType var type => s!"infinite type: cannot bind {var} to {type}, which contains it"
  | boundNotSatisfied type bound reason =>
    if reason = "" then s!"type '{type}' does not satisfy bound '{bound}'"
    else s!"type '{type}' does not satisfy bound '{bound}': {reason}"
  | capabilityNotFound name => s!"capability '{name}' is not declared"
  | conflictingImplementation capability type existing =>
    s!"conflicting implementations of '{capability}' for type '{type}' (overlaps with impl for '{existing}')"
  | conflictingCapability name => s!"capability '{name}' is declared more than once"
  | aliasNotFound name => s!"type alias '{name}' is not defined"
  | cyclicAlias name => s!"type alias '{name}' refers to itself"
  | recursionDepthExceeded name limit chain =>
    if chain.isEmpty then s!"expanding '{name}' exceeded the recursion limit of {limit}"
    else
      let via := " -> ".intercalate chain
      s!"expanding '{name}' exceeded the recursion limit of {limit} (via {via})"
  | invalidAlias name reason => s!"invalid type alias '{name}': {reason}"
  | typeMismatch expected found context =>
    if context = "" then s!"type mismatch: expected '{expected}', but found '{found}'"
    else s!"type mismatch in {context}: expected '{expected}', but found '{found}'"
  | solverIterationLimit limit pending =>
    s!"region constraints did not converge after {limit} iterations ({pending} constraints pending)"
  | unknownLifetimeBound region bound =>
    s!"region bound '{region}: {bound}' refers to an undeclared region"
  | regionBoundNotSatisfied region bound => s!"region '{region}' does not satisfy bound '{bound}'"
  | regionConstraintViolated longer shorter =>
    s!"region '{longer}' is required to outlive '{shorter}', but no declared bound proves it"
  | missingRegion function inputs =>
    if inputs = 0 then
      s!"missing region specifier in return type of '{function}': there are no input regions to elide from"
    else
      s!"missing region specifier in return type of '{function}': {inputs} input regions make elision ambiguous"
  | constEval expr reason => s!"cannot evaluate constant expression '{expr}': {reason}"
  | missingConstParameter owner param =>
    s!"const parameter '{param}' of '{owner}' has no value and no default"
  | unknownAssociatedType capability name =>
    s!"capability '{capability}' declares no associated type '{name}'"
  | missingAssociatedType capability type name =>
    s!"implementation of '{capability}' for '{type}' is missing associated type '{name}'"
  | malformedType text reason => s!"malformed type '{text}': {reason}"

/-- The error's number in three digits, as in `E007`. -/
def label (e : Error) : String :=
  let digits := Nat.toDigits 10 e.code
  "E" ++ String.ofList (List.replicate (3 - digits.length) '0' ++ digits)

/-- The wording of an error after its label. -/
def labelled (e : Error) : String := s!"({e.label}) {e.message}"

end Error

end Generics
