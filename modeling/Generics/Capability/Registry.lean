import Generics.Capability.Selection

/-!
# Checking bounds

A type satisfies a bound when the first implementation that matches has its conditions satisfied, the
arguments satisfy the bounds of the parameters, and every supertrait is implemented. The conditions of
an implementation are bounds again, so checking recurses; conditions that grow the type would make it
go on for ever. Every check is therefore given the depth to which it may recurse and has no answer when
it needs more. A bound that is met again while it is being checked fails.

Verdicts are remembered under the written form of the type and the bounds. A verdict counts as long as
nothing was declared since.
-/

namespace Generics

/-- A verdict on the bounds of a type. -/
structure RememberedVerdict where
  /-- How many declarations there were. -/
  generation : Nat
  verdict : Except Error Unit

/-- The remembered verdicts by the written form of type and bounds. -/
abbrev VerdictCache := List (String × RememberedVerdict)

/-- Checks that remember verdicts and may have no answer. -/
abbrev CheckM := ExceptT Error (StateT VerdictCache Option)

namespace VerdictCache

/-- Remembers a verdict in place of an older one. -/
def remember (cache : VerdictCache) (key : String) (v : RememberedVerdict) : VerdictCache :=
  (key, v) :: cache.filter fun e => e.1 ≠ key

/-- The verdict that still counts. -/
def verdict? (cache : VerdictCache) (generation : Nat) (key : String) : Option (Except Error Unit) :=
  match cache.lookup key with
  | some v => if v.generation = generation then some v.verdict else none
  | none => none

end VerdictCache

namespace CheckM

/-- No answer within the depth. -/
def unanswered {α : Type} : CheckM α := ExceptT.mk fun _ => none

/-- Does the work unless its verdict is remembered, and remembers the verdict. -/
def remembering (generation : Nat) (key : String) (work : CheckM Unit) : CheckM Unit :=
  ExceptT.mk fun cache =>
    match VerdictCache.verdict? cache generation key with
    | some verdict => some (verdict, cache)
    | none => do
      let (verdict, cache) ← work.run.run cache
      return (verdict, VerdictCache.remember cache key ⟨generation, verdict⟩)

/-- Puts another error in place of the one that the work fails with. -/
def explaining {α : Type} (work : CheckM α) (explain : Error → Error) : CheckM α :=
  tryCatch work fun e => throw (explain e)

end CheckM

namespace Catalog

/-- What the verdict on the bounds of a type is remembered under. The order of bounds and repeated
bounds make no difference. -/
def verdictKey (t : Ty) (bounds : List Bound) : String :=
  let written := ((bounds.map Bound.render).mergeSort fun a b => a ≤ b).eraseDups
  t.render ++ ": " ++ " + ".intercalate written

/-- Checks the bounds of a type in order, given the check of a single bound. -/
def checkBoundsWith (c : Catalog) (check : Ty → Bound → CheckM Unit) (t : Ty) (bounds : List Bound) :
    CheckM Unit :=
  .remembering c.generation (verdictKey t bounds) (bounds.forM (check t))

/-- Checks the conditions of a selected implementation in order. -/
def checkClauses (c : Catalog) (check : Ty → Bound → CheckM Unit) (explain : Error → Error)
    (sel : Selection) : List WhereClause → CheckM Selection
  | [] => return sel
  | clause :: clauses => do
    let (bounds, sel) := sel.instantiateBounds clause.bounds
    let (t, sel) := sel.instantiate clause.type
    (c.checkBoundsWith check t bounds).explaining explain
    c.checkClauses check explain sel clauses

/-- Selects the implementation of a capability for a type and checks its conditions. -/
def selectWith (c : Catalog) (check : Ty → Bound → CheckM Unit) (capability : String) (t : Ty)
    (args : List Ty) : CheckM Selection :=
  let fails (reason : String) := Error.boundNotSatisfied t.render (Bound.applied capability args) reason
  match c.select? capability t args with
  | none => throw (fails "no implementation matches")
  | some sel =>
    let i := sel.implementation
    let explain (e : Error) := fails s!"where clause of {i.render} fails: {e.message}"
    c.checkClauses check explain sel i.clauses

/-- Checks the bounds of the parameters of a capability on its arguments. -/
def checkArguments (check : Ty → Bound → CheckM Unit) (fails : String → Error)
    (params : List CapabilityParam) (args : List Ty) : CheckM Unit :=
  (params.zip args).forM fun (p, arg) =>
    p.bounds.forM fun b =>
      (check arg b).explaining fun e => fails s!"argument {p.name} = {arg.render}: {e.message}"

/-- Checks that a type implements the given supertraits. -/
def checkSupertraitsWith (c : Catalog) (check : Ty → Bound → CheckM Unit) (fails : String → Error)
    (t : Ty) (names : List String) : CheckM Unit :=
  names.forM fun name => do
    let super ← c.find name
    match super.fillArgs [] with
    | .error _ => throw (fails s!"supertrait {name} has parameters without defaults")
    | .ok args =>
      let _ ← (c.selectWith check name t args).explaining fun _ =>
        fails s!"supertrait {name} is not implemented"

/-- Checks a bound of a type while the bounds in `opened` are being checked. -/
def checkBound (c : Catalog) : (depth : Nat) → (opened : List String) → Ty → Bound → CheckM Unit
  | 0, _, _, _ => .unanswered
  | depth + 1, opened, t, b => do
    if b.kind.isRegional then return
    let cap ← c.find b.capability
    let args ← cap.fillArgs b.args
    let fails := Error.boundNotSatisfied t.render b.render
    let obligation := s!"{t.render}: {b.render}"
    if obligation ∈ opened then throw (fails "the bound requires itself")
    let check := c.checkBound depth (obligation :: opened)
    let _ ← c.selectWith check cap.name t args
    checkArguments check fails cap.params args
    c.checkSupertraitsWith check fails t (← c.supertraits cap.name)

/-- Checks the bounds of a type. -/
def checkBounds (c : Catalog) (depth : Nat) (t : Ty) (bounds : List Bound) : CheckM Unit :=
  c.checkBoundsWith (c.checkBound depth []) t bounds

/-- The implementation of a capability for a type. Its conditions are checked, supertraits are not. -/
def select (c : Catalog) (depth : Nat) (capability : String) (t : Ty) (args : List Ty) :
    CheckM Selection := do
  let cap ← c.find capability
  let args ← cap.fillArgs args
  c.selectWith (c.checkBound depth []) cap.name t args

/-- The associated type of a capability for a type. -/
def associatedType (c : Catalog) (depth : Nat) (capability : String) (t : Ty) (name : String) :
    CheckM Ty := do
  let cap ← c.find capability
  if name ∉ cap.associated then throw (.unknownAssociatedType capability name)
  let sel ← c.select depth capability t []
  match sel.implementation.associated.lookup name with
  | some assoc => return (sel.instantiate assoc).1
  | none => throw (.missingAssociatedType capability t.render name)

end Catalog

/-- A catalog with the verdicts given on it. -/
structure Registry where
  catalog : Catalog := {}
  cache : VerdictCache := []

namespace Registry

/-- Declares a capability, or fails and changes nothing. -/
def declare (r : Registry) (cap : Capability) : Registry × Except Error Unit :=
  match r.catalog.declare cap with
  | .ok catalog => ({ r with catalog }, .ok ())
  | .error e => (r, .error e)

/-- Declares an implementation, or fails and changes nothing. -/
def implement (r : Registry) (i : Implementation) : Registry × Except Error Unit :=
  match r.catalog.implement i with
  | .ok catalog => ({ r with catalog }, .ok ())
  | .error e => (r, .error e)

/-- Makes a check on the catalog. -/
def run {α : Type} (r : Registry) (check : Catalog → CheckM α) : Option (Registry × Except Error α) := do
  let (outcome, cache) ← (check r.catalog).run.run r.cache
  return ({ r with cache }, outcome)

/-- Checks the bounds of a type. -/
def checkBounds (r : Registry) (depth : Nat) (t : Ty) (bounds : List Bound) :
    Option (Registry × Except Error Unit) :=
  r.run fun c => c.checkBounds depth t bounds

/-- The implementation of a capability for a type. -/
def select (r : Registry) (depth : Nat) (capability : String) (t : Ty) (args : List Ty) :
    Option (Registry × Except Error Selection) :=
  r.run fun c => c.select depth capability t args

/-- The associated type of a capability for a type. -/
def associatedType (r : Registry) (depth : Nat) (capability : String) (t : Ty) (name : String) :
    Option (Registry × Except Error Ty) :=
  r.run fun c => c.associatedType depth capability t name

/-- Forgets all verdicts. -/
def forget (r : Registry) : Registry := { r with cache := [] }

end Registry

end Generics
