import Generics.Alias.Cache
import Generics.Capability.Registry
import Generics.Const.Context
import Generics.Region.Elision
import Generics.Session.Diagnostic
import Generics.Session.Holes

/-!
# Checking sessions

A session checks one unit of code, such as the body of a function, against shared declarations. It
collects what it infers of types, the verdicts on bounds, the checked signatures and instances, and all
diagnostics. A failing request is recorded and the session goes on.

Bounds on a type that is not fully inferred are put off until the session is finished. Requests that
check bounds take the depth to which they may recurse, and have no answer when that is not enough.
-/

namespace Generics

/-- A name whose type is reported. -/
structure NamedType where
  origin : Origin
  name : String
  type : Ty

/-- The outcome of a check of bounds. -/
structure Verdict where
  origin : Origin
  type : Ty
  bounds : List Bound
  outcome : Except Error Unit

/-- The type satisfies the bounds. -/
def Verdict.passed (v : Verdict) : Bool :=
  match v.outcome with
  | .ok () => true
  | .error _ => false

/-- A signature without elided regions and the solution of its region constraints. -/
structure SignatureCheck where
  origin : Origin
  elision : Elision
  solution : RegionSolution

/-- The function type of the signature with all resolved regions put in. -/
def SignatureCheck.function (c : SignatureCheck) : Ty :=
  c.solution.apply c.elision.signature.function

/-- An instance of an item with const parameters. -/
structure Instance where
  origin : Origin
  owner : String
  id : String

/-- A const argument as it is written. -/
structure ConstExpr where
  name : String
  expr : String

/-- Bounds that are put off. -/
structure Obligation where
  origin : Origin
  type : Ty
  bounds : List Bound

/-- What a session found out. -/
structure SessionResult where
  bindings : List NamedType
  verdicts : List Verdict
  signatures : List SignatureCheck
  instances : List Instance
  /-- The errors of the unit. -/
  errors : List Diagnostic
  /-- All other problems. -/
  failures : List Diagnostic

/-- Something is wrong with the unit. -/
def SessionResult.hasErrors (r : SessionResult) : Bool := !r.errors.isEmpty || !r.failures.isEmpty

/-- The state of checking one unit. -/
structure Session where
  registry : Registry
  aliases : Aliases
  consts : Const.Evaluator := {}
  /-- What is inferred of types so far. -/
  subst : Subst := .empty
  fresher : Fresher := .new
  bindings : List NamedType := []
  deferred : List Obligation := []
  verdicts : List Verdict := []
  signatures : List SignatureCheck := []
  instances : List Instance := []
  errors : List Diagnostic := []
  failures : List Diagnostic := []

namespace Session

/-- Issues an inference variable. -/
def fresh (s : Session) : Ty × Session :=
  let (v, fresher) := s.fresher.fresh
  (.var v, { s with fresher })

/-- A type as far as it is inferred. -/
def apply (s : Session) (t : Ty) : Ty := s.subst.apply t

/-- Records a problem. -/
def report (s : Session) (origin : Origin) (problem : Problem) : Session × Diagnostic :=
  let d : Diagnostic := ⟨origin, problem⟩
  if problem.isCoded then ({ s with errors := s.errors ++ [d] }, d)
  else ({ s with failures := s.failures ++ [d] }, d)

/-- Records the error of a request, if it has one. -/
def conclude {α : Type} (s : Session) (origin : Origin) : Except Error α → Session × Except Diagnostic α
  | .ok a => (s, .ok a)
  | .error e =>
    let (s, d) := s.report origin (.coded e)
    (s, .error d)

/-- The type that an annotation stands for. Each hole becomes a fresh variable, and so does each
written variable, the same one throughout the annotation. -/
def annotate (s : Session) (origin : Origin) (text : String) : Session × Except Diagnostic Ty :=
  let (named, count) := Hole.nameAll text
  let (aliases, expanded) := s.aliases.expand named
  let s := { s with aliases }
  match expanded with
  | .error e => s.conclude origin (.error e)
  | .ok t =>
    let (t, fresher) := s.fresher.renameAlone t
    let (t, fresher) := Hole.fill fresher count t
    ({ s with fresher }, .ok t)

/-- Has the type of a name reported. -/
def record (s : Session) (origin : Origin) (name : String) (t : Ty) : Session :=
  { s with bindings := s.bindings ++ [⟨origin, name, t⟩] }

/-- Makes two types equal. -/
def unify (s : Session) (origin : Origin) (a b : Ty) : Session × Except Diagnostic Unit :=
  let (subst, outcome) := s.subst.unify a b
  { s with subst }.conclude origin outcome

/-- Checks bounds on a type and records the verdict. -/
def judge (s : Session) (depth : Nat) (origin : Origin) (t : Ty) (bounds : List Bound) :
    Option (Session × Except Diagnostic Unit) := do
  let (registry, outcome) ← s.registry.checkBounds depth t bounds
  let s := { s with registry, verdicts := s.verdicts ++ [Verdict.mk origin t bounds outcome] }
  return s.conclude origin outcome

/-- Requires bounds on a type: now if it is fully inferred, or else when the session is finished. -/
def require (s : Session) (depth : Nat) (origin : Origin) (t : Ty) (bounds : List Bound) :
    Option (Session × Except Diagnostic Unit) :=
  let applied := s.apply t
  if applied.isGround then s.judge depth origin applied bounds
  else some ({ s with deferred := s.deferred ++ [⟨origin, t, bounds⟩] }, .ok ())

/-- The associated type of a capability for a type. -/
def project (s : Session) (depth : Nat) (origin : Origin) (capability : String) (t : Ty)
    (name : String) : Option (Session × Except Diagnostic Ty) := do
  let (registry, outcome) ← s.registry.associatedType depth capability (s.apply t) name
  return { s with registry }.conclude origin outcome

/-- Fills in the elided regions of a signature and solves its region constraints. -/
def solveSignature (subst : Subst) (sig : Signature) (params : List RegionParam)
    (constraints : List RegionConstraint) : Except Error (Elision × RegionSolution) := do
  let (solver, declared) := RegionSolver.declare {} params
  declared
  params.forM fun p => solver.checkBounds p.name p.bounds
  let (solver, elided) := solver.elide sig
  let elision ← elided
  let solution ← ((solver.add constraints).solve subst).2
  return (elision, solution)

/-- Checks a signature with its region parameters and constraints. -/
def checkSignature (s : Session) (origin : Origin) (sig : Signature) (params : List RegionParam)
    (constraints : List RegionConstraint) : Session × Except Diagnostic SignatureCheck :=
  match solveSignature s.subst sig params constraints with
  | .error e => s.conclude origin (.error e)
  | .ok (elision, solution) =>
    let checked : SignatureCheck := ⟨origin, elision, solution⟩
    ({ s with signatures := s.signatures ++ [checked] }, .ok checked)

/-- Evaluates const arguments one after the other up to the first failure. -/
def evaluateAll (e : Const.Evaluator) : List ConstExpr →
    Const.Evaluator × Except Error (List Const.Argument)
  | [] => (e, .ok [])
  | arg :: args =>
    match e.evaluate arg.expr with
    | (e, .error err) => (e, .error err)
    | (e, .ok value) =>
      let (e, rest) := evaluateAll e args
      (e, rest.map (⟨arg.name, some value⟩ :: ·))

/-- The identifier of the instance that const arguments make of an item. -/
def instantiate (s : Session) (origin : Origin) (item : Const.Context) (args : List ConstExpr) :
    Session × Except Diagnostic String :=
  let (consts, values) := evaluateAll s.consts args
  let s := { s with consts }
  match values.bind item.monomorphize with
  | .error e => s.conclude origin (.error e)
  | .ok id => ({ s with instances := s.instances ++ [⟨origin, item.owner, id⟩] }, .ok id)

/-- Settles bounds that were put off. A type that is still not fully inferred fails. -/
def settle (s : Session) (depth : Nat) : List Obligation → Option Session
  | [] => some s
  | o :: os => do
    let t := s.apply o.type
    if t.isGround then
      let (s, _) ← s.judge depth o.origin t o.bounds
      s.settle depth os
    else
      let written := " ".intercalate (o.bounds.map Bound.render)
      let e := Error.boundNotSatisfied t.render s!"[{written}]" "the type could not be inferred"
      let s := { s with verdicts := s.verdicts ++ [Verdict.mk o.origin t o.bounds (.error e)] }
      (s.report o.origin (.coded e)).1.settle depth os

/-- What the session has found out. -/
def result (s : Session) : SessionResult where
  bindings := s.bindings.map fun b => { b with type := s.apply b.type }
  verdicts := s.verdicts
  signatures := s.signatures
  instances := s.instances
  errors := s.errors
  failures := s.failures

/-- Settles all bounds that were put off and tells what the session has found out. -/
def finish (s : Session) (depth : Nat) : Option (Session × SessionResult) := do
  let s ← s.settle depth s.deferred
  let s := { s with deferred := [] }
  return (s, s.result)

end Session

end Generics
