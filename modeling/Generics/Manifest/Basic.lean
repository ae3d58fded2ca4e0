import Generics.Manifest.Constraint
import Generics.Manifest.Decode
import Generics.Region.Outlives

/-!
# Manifests

A valid manifest: every declaration names what it declares, and every step of a unit makes exactly one
request and has all that the request needs. Problems are collected for the whole manifest.
-/

namespace Generics

open Text

/-- What a step asks for. Types, bounds and constant expressions are still texts. -/
inductive Request where
  /-- Bind a name to a type. -/
  | bind (name type : String)
  /-- Make two types equal. -/
  | unify (a b : String)
  /-- Require bounds on a type. -/
  | require (type : String) (bounds : List String)
  /-- Find an associated type and bind it to a name, if one is given. -/
  | project (type capability item name : String)
  /-- Check the signature of a function. An empty receiver or return type is left out. -/
  | signature (name receiver : String) (params : List String) (ret : String)
      (regions : List RegionParam) (constraints : List WrittenConstraint)
  /-- Instantiate an item with const arguments. -/
  | instantiate (owner : String) (args : List (String × String))

/-- The request as it is shown in diagnostics. -/
def Request.describe : Request → String
  | bind name type => s!"let {name}: {type}"
  | unify a b => s!"unify {a} = {b}"
  | require type bounds => type ++ ": " ++ " + ".intercalate bounds
  | project type capability item _ => s!"<{type} as {capability}>::{item}"
  | signature name .. => s!"fn {name}"
  | instantiate owner _ => s!"instantiate {owner}"

/-- A unit: requests that are made in one session. -/
structure CodeUnit where
  name : String
  steps : List (Located Request)

/-- A valid manifest. -/
structure Manifest where
  /-- The file that the manifest was read from. -/
  path : String
  capabilities : List (Located CapabilityDecl)
  implementations : List (Located ImplementationDecl)
  aliases : List (Located TypeAlias)
  consts : List (Located ConstDecl)
  units : List CodeUnit

/-- Why a file is not a manifest. -/
inductive ManifestError where
  /-- The file is no document, or a document of another shape. -/
  | malformed (path : String)
  /-- The manifest has the given problems. -/
  | invalid (path : String) (problems : List String)
deriving DecidableEq, Repr

/-- The wording of an error. -/
def ManifestError.message : ManifestError → String
  | malformed path => s!"parsing manifest {path}: not a manifest document"
  | invalid path problems =>
    s!"invalid manifest {path}: " ++ String.join (problems.map ("\n  " ++ ·))

namespace StepDecl

/-- The names of the requests that a step makes. -/
def kinds (s : StepDecl) : List String :=
  let requests : List (String × Bool) :=
    [("let", s.letName ≠ ""), ("unify", !s.unify.isEmpty), ("require", s.require ≠ ""),
     ("project", s.project ≠ ""), ("signature", s.signature ≠ ""), ("instantiate", s.instantiate ≠ "")]
  (requests.filter Prod.snd).map Prod.fst

/-- All values, or all problems in order. -/
def collect {α : Type} : List (Except (List String) α) → Except (List String) (List α)
  | [] => .ok []
  | .ok a :: rest => (collect rest).map (a :: ·)
  | .error problems :: rest =>
    match collect rest with
    | .ok _ => .error problems
    | .error more => .error (problems ++ more)

/-- The request that a step makes. `owners` are the items with const parameters. -/
def request (owners : List String) (unitName : String) (s : StepDecl) :
    Except (List String) Request :=
  match s.kinds with
  | [] => .error [s!"unit {unitName}: step makes no request"]
  | ["let"] =>
    if s.type = "" then .error [s!"let {s.letName} has no type"] else .ok (.bind s.letName s.type)
  | ["unify"] =>
    match s.unify with
    | [a, b] => .ok (.unify a b)
    | types => .error [s!"unify takes 2 types, got {types.length}"]
  | ["require"] => .ok (.require s.require s.bounds)
  | ["project"] =>
    if s.capability = "" ∨ s.item = "" then .error ["project needs a capability and an item"]
    else .ok (.project s.project s.capability s.item s.bindAs)
  | ["signature"] => do
    let constraints ← collect (s.constraints.map fun c => (WrittenConstraint.parse c).mapError ([·]))
    let regions := s.regions.map fun r => ⟨⟨r.name⟩, r.bounds.map Region.mk⟩
    return .signature s.signature s.receiver s.params s.ret regions constraints
  | ["instantiate"] =>
    if owners.contains s.instantiate then .ok (.instantiate s.instantiate s.args)
    else .error [s!"instantiate {s.instantiate}: no const declaration for it"]
  | kinds => .error ["step makes several requests: " ++ "+".intercalate kinds]

end StepDecl

namespace ManifestDecl

open StepDecl

/-- A problem with the line it is on. -/
def atLine (pos : Position) (problem : String) : String := s!"line {pos.line}: {problem}"

/-- The problem of each declaration that fails a test. -/
def problemsOf {α : Type} (decls : List (Located α)) (isBad : α → Bool) (problem : String) :
    List String :=
  decls.filterMap fun d => if isBad d.value then some (atLine d.pos problem) else none

/-- The valid form of a unit. Its name is not among those of the units before it. -/
def checkUnit (owners earlier : List String) (u : UnitDecl) : Except (List String) CodeUnit :=
  let named : Except (List String) Unit :=
    if earlier.contains u.name then .error [s!"unit {quote u.name}: declared twice"] else .ok ()
  let steps := u.steps.map fun s =>
    ((s.value.request owners u.name).map fun r => (⟨r, s.pos⟩ : Located Request)).mapError
      (·.map (atLine s.pos))
  match named, collect steps with
  | .ok (), .ok steps => .ok ⟨u.name, steps⟩
  | .ok (), .error problems => .error problems
  | .error problems, .ok _ => .error problems
  | .error problems, .error more => .error (problems ++ more)

/-- The valid forms of units. -/
def checkUnits (owners earlier : List String) : List UnitDecl → List (Except (List String) CodeUnit)
  | [] => []
  | u :: us => checkUnit owners earlier u :: checkUnits owners (u.name :: earlier) us

/-- The valid form of a manifest, or all its problems. -/
def validate (m : ManifestDecl) (path : String) : Except (List String) Manifest :=
  let problems :=
    problemsOf m.capabilities (fun c => c.name = "") "capability without a name" ++
    problemsOf m.implementations (fun i => i.capability = "" || i.type = "")
      "impl needs both a capability and a type" ++
    problemsOf m.consts (fun c => c.owner = "") "const declaration without an owner"
  let owners := m.consts.map fun c => c.value.owner
  match problems, collect (checkUnits owners [] m.units) with
  | [], .ok units =>
    .ok ⟨path, m.capabilities, m.implementations, m.aliases, m.consts, units⟩
  | problems, .ok _ => .error problems
  | problems, .error more => .error (problems ++ more)

end ManifestDecl

/-- Reads a manifest from the text of a file. -/
def Manifest.parse (path text : String) : Except ManifestError Manifest :=
  match ManifestDecl.parse? text with
  | none => .error (.malformed path)
  | some m => (m.validate path).mapError (.invalid path)

end Generics
