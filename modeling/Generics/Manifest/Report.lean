import Generics.Manifest.Declare
import Generics.Session.Basic

/-!
# Checking a manifest

Each unit of a manifest is checked in a session of its own against the shared declarations. Wherever a
step takes a type, the name of an earlier binding of the unit stands for the type of that binding.
-/

namespace Generics

open Text

/-- A unit that is being checked. -/
structure UnitRun where
  session : Session
  /-- The items with const parameters by name. -/
  consts : List (String × Const.Context)
  /-- The types that were bound to names, the latest first. -/
  names : List (String × Ty) := []

/-- Requests of a unit. The diagnostic of one that fails is recorded in the session. -/
abbrev UnitM := ExceptT Diagnostic (StateT UnitRun Option)

namespace UnitM

/-- Makes a request that may have no answer. -/
def ask {α : Type} (f : Session → Option (Session × Except Diagnostic α)) : UnitM α :=
  ExceptT.mk fun u => do
    let (session, outcome) ← f u.session
    return (outcome, { u with session })

/-- Makes a request. -/
def request {α : Type} (f : Session → Session × Except Diagnostic α) : UnitM α := ask fun s => some (f s)

/-- Records a problem and gives up. -/
def fail {α : Type} (origin : Origin) (problem : Problem) : UnitM α :=
  request fun s =>
    let (s, d) := s.report origin problem
    (s, .error d)

/-- The type of the binding that a text names, or else the text as an annotation. -/
def term (origin : Origin) (text : String) : UnitM Ty := do
  match (← get).names.lookup (trim text) with
  | some t => return t
  | none => request fun s => s.annotate origin text

/-- A type that may be left out. -/
def term? (origin : Origin) (text : String) : UnitM (Option Ty) :=
  if text = "" then return none else some <$> term origin text

/-- The bounds that texts stand for. -/
def bounds (origin : Origin) (texts : List String) : UnitM (List Bound) :=
  request fun s =>
    let (outcome, aliases) := (texts.mapM ExpandM.bound).run.run s.aliases
    let s := { s with aliases }
    match outcome with
    | .ok bounds => (s, .ok bounds)
    | .error problem =>
      let (s, d) := s.report origin problem
      (s, .error d)

/-- Binds a name to a type. -/
def bind (origin : Origin) (name : String) (t : Ty) : UnitM Unit :=
  modify fun u => { u with session := u.session.record origin name t, names := (name, t) :: u.names }

/-- The region constraint that is written. -/
def constraint (origin : Origin) : WrittenConstraint → UnitM RegionConstraint
  | .outlives longer shorter => return .outlives longer shorter
  | .equal a b => return .equal a b
  | .typeOutlives type region => return .typeOutlives (← term origin type) region

/-- Makes the request of a step. -/
def step (depth : Nat) (origin : Origin) : Request → UnitM Unit
  | .bind name type => do bind origin name (← term origin type)
  | .unify a b => do
    let a ← term origin a
    let b ← term origin b
    request fun s => s.unify origin a b
  | .require type texts => do
    let t ← term origin type
    let bs ← bounds origin texts
    ask fun s => s.require depth origin t bs
  | .project type capability item name => do
    let t ← term origin type
    let projected ← ask fun s => s.project depth origin capability t item
    if name ≠ "" then bind origin name projected
  | .signature name receiver params ret regions constraints => do
    let receiver ← term? origin receiver
    let params ← params.mapM (term origin)
    let ret ← term? origin ret
    let constraints ← constraints.mapM (constraint origin)
    let _ ← request fun s => s.checkSignature origin ⟨name, receiver, params, ret⟩ regions constraints
  | .instantiate owner args => do
    match (← get).consts.lookup owner with
    | none => fail origin (.plain s!"{owner} has no const parameters declared")
    | some item =>
      let args := (args.mergeSort fun a b => a.1 ≤ b.1).map fun (name, expr) => ⟨name, expr⟩
      let _ ← request fun s => s.instantiate origin item args

end UnitM

namespace CodeUnit

/-- Makes the requests of steps one after the other. -/
def runSteps (depth : Nat) (unitName : String) (u : UnitRun) :
    List (Located Request) → Option UnitRun
  | [] => some u
  | s :: steps => do
    let origin : Origin := ⟨s!"{unitName}: {s.value.describe}", some s.pos⟩
    let (_, u) ← (UnitM.step depth origin s.value).run.run u
    runSteps depth unitName u steps

/-- Checks a unit. What was remembered of aliases and bounds is handed on. -/
def check (depth : Nat) (d : Declarations) (u : CodeUnit) : Option (Declarations × SessionResult) := do
  let session : Session := { registry := d.registry, aliases := d.aliases }
  let run ← runSteps depth u.name { session, consts := d.consts } u.steps
  let (session, result) ← run.session.finish depth
  return ({ d with registry := session.registry, aliases := session.aliases }, result)

/-- Checks units one after the other. -/
def checkAll (depth : Nat) (d : Declarations) : List CodeUnit → Option (List (String × SessionResult))
  | [] => some []
  | u :: us => do
    let (d, result) ← u.check depth d
    return (u.name, result) :: (← checkAll depth d us)

end CodeUnit

/-- The outcome of checking a manifest. -/
structure Report where
  path : String
  /-- The diagnostics of declarations that failed. -/
  declarations : List Diagnostic
  /-- The units by name and what was found out about them. -/
  units : List (String × SessionResult)

namespace Report

/-- Where something was written, as `file:line:column`, or else the file. -/
def locate (path : String) (o : Origin) : String :=
  match o.position with
  | none => path
  | some pos => if path = "" then pos.render else s!"{path}:{pos.render}"

/-- The diagnostic with its place. -/
def format (r : Report) (d : Diagnostic) : String :=
  s!"{locate r.path d.origin}: {d.origin.construct}: {d.problem.labelled}"

/-- All diagnostics, those of declarations first. -/
def diagnostics (r : Report) : List Diagnostic :=
  r.declarations ++ r.units.flatMap fun u => u.2.errors ++ u.2.failures

/-- Something is wrong with the manifest. -/
def hasErrors (r : Report) : Bool := !r.declarations.isEmpty || r.units.any fun u => u.2.hasErrors

end Report

/-- Makes the declarations of a manifest and checks its units. There is no answer if a check of bounds
needs to recurse deeper than `depth`. -/
def Manifest.check (depth : Nat) (m : Manifest) : Option Report := do
  let (d, declarations) := Declarations.ofManifest m
  return ⟨m.path, declarations, ← CodeUnit.checkAll depth d m.units⟩

end Generics
