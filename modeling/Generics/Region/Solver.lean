import Generics.Error
import Generics.Region.Constraint
import Generics.Region.Outlives
import Generics.Subst.Basic
import Generics.Ty.Regions
import Generics.Variance

/-!
# Solving region constraints

A solver collects the region parameters and constraints of one function. Solving passes over the
constraints again and again. A constraint between known regions is checked against the declared bounds;
one with a single unknown region variable decides that variable; one about a type whose inference
variables are all bound becomes a constraint for each of its regions; all others wait for the next pass.
It ends with the first pass that decides nothing.

What a solver has decided it keeps, also when solving fails.
-/

namespace Generics

/-- The region parameters, constraints and region variables of one function. -/
structure RegionSolver where
  /-- How many passes solving may make. -/
  limit : Int := 100
  /-- The region parameters that were accepted. -/
  params : List RegionParam := []
  /-- The declared regions. The static region needs no declaration. -/
  declared : List Region := [.static]
  /-- Regions that stand for any region, under which a higher-ranked type was entered. -/
  placeholders : List Region := []
  constraints : List RegionConstraint := []
  /-- What the decided region variables stand for. -/
  resolution : List (Region × Region) := []
  /-- How many region variables were issued. -/
  issued : Nat := 0
  /-- Variances worked out since the last change of parameters or constraints. -/
  variances : List (Region × Variance) := []

/-- What solving found out. -/
structure RegionSolution where
  /-- The decided region variables and their regions. -/
  resolved : List (Region × Region) := []
  /-- The region variables that nothing decides. -/
  unresolved : List Region := []
  /-- The constraints that could not be decided. -/
  pending : List RegionConstraint := []
  /-- The number of passes made. -/
  iterations : Nat := 0

namespace RegionSolution

/-- What a region was resolved to, or else the region itself. -/
def resolve (sol : RegionSolution) (r : Region) : Region := (sol.resolved.lookup r).getD r

/-- The type with each resolved region variable replaced. -/
def apply (sol : RegionSolution) (t : Ty) : Ty := t.mapRegions sol.resolve

end RegionSolution

namespace RegionSolver

/-! ## Collecting -/

/-- Accepts region parameters one after the other up to the first one with an undeclared bound. -/
def accept (sv : RegionSolver) : List RegionParam → RegionSolver × Except Error Unit
  | [] => ({ sv with variances := [] }, .ok ())
  | p :: ps =>
    match p.bounds.find? fun b => b ∉ sv.declared with
    | some b => (sv, .error (.unknownLifetimeBound p.name.name b.name))
    | none => accept { sv with params := sv.params ++ [p] } ps

/-- Declares region parameters. A bound has to be the static region, a region declared earlier, or one
of these parameters. Parameters before one with another bound are accepted all the same. -/
def declare (sv : RegionSolver) (params : List RegionParam) : RegionSolver × Except Error Unit :=
  accept { sv with declared := sv.declared ++ params.map RegionParam.name } params

/-- Issues a region variable. -/
def fresh (sv : RegionSolver) : Region × RegionSolver :=
  (.numbered sv.issued, { sv with issued := sv.issued + 1 })

/-- Adds constraints for the next time of solving. -/
def add (sv : RegionSolver) (cs : List RegionConstraint) : RegionSolver :=
  { sv with constraints := sv.constraints ++ cs, variances := [] }

/-- The placeholder for a quantified region when `n` placeholders exist: `'a` gives `'^a0`. -/
def placeholder (q : Region) (n : Nat) : Region :=
  let bare := match q.name.toList with
    | '\'' :: cs => cs
    | cs => cs
  ⟨String.ofList ('\'' :: '^' :: (bare ++ Text.decimal n))⟩

/-- Makes a placeholder for each quantified region in turn. -/
def placehold (sv : RegionSolver) : List Region → List Region × RegionSolver
  | [] => ([], sv)
  | q :: qs =>
    let p := placeholder q sv.placeholders.length
    let (ps, sv) := placehold { sv with placeholders := sv.placeholders.insert p } qs
    (p :: ps, sv)

/-- Enters a higher-ranked type: its quantified regions become placeholders, which have no declared
bounds. Of two placeholders for one region the later takes its place. -/
def enter (sv : RegionSolver) (t : Ty) (quantified : List Region) : Ty × List Region × RegionSolver :=
  let (created, sv) := sv.placehold quantified
  let images := (quantified.zip created).reverse
  (t.mapRegions fun r => (images.lookup r).getD r, created, sv)

/-! ## Solving -/

/-- The region may be named in a constraint. -/
def isNamed (sv : RegionSolver) (r : Region) : Bool :=
  r.isVariable || r ∈ sv.declared || r ∈ sv.placeholders

/-- The region that `r` stands for, if that is decided. -/
def known (sv : RegionSolver) (r : Region) : Option Region :=
  match sv.resolution.lookup r with
  | some resolved => some resolved
  | none => if r.isVariable then none else some r

/-- `a` outlives `b` by the declared bounds. -/
def outlives (sv : RegionSolver) (a b : Region) : Bool := RegionParam.outlives sv.params a b

/-- What becomes of a constraint when it is looked at. -/
inductive Outcome where
  /-- It cannot be decided yet. -/
  | waits
  /-- It holds. -/
  | holds
  /-- It holds if the region variable is the given region. -/
  | decides (var region : Region)
  /-- It holds if all of these do. -/
  | expands (cs : List RegionConstraint)

/-- Looks at a constraint. -/
def examine (sv : RegionSolver) (s : Subst) : RegionConstraint → Except Error Outcome
  | .outlives longer shorter =>
    match sv.known longer, sv.known shorter with
    | some a, some b =>
      if !(sv.isNamed a && sv.isNamed b) then .error (.unknownLifetimeBound a.name b.name)
      else if sv.outlives a b then .ok .holds
      else .error (.regionConstraintViolated a.name b.name)
    | some a, none => .ok (.decides shorter a)
    | none, some b => .ok (.decides longer b)
    | none, none => .ok .waits
  | .equal x y =>
    match sv.known x, sv.known y with
    | some a, some b =>
      if sv.outlives a b && sv.outlives b a then .ok .holds
      else .error (.regionConstraintViolated a.name b.name)
    | some a, none => .ok (.decides y a)
    | none, some b => .ok (.decides x b)
    | none, none => .ok .waits
  | .typeOutlives type region =>
    let t := s.apply type
    if t.isGround then .ok (.expands (t.regions.map fun r => .outlives r region)) else .ok .waits

/-- How far a pass has come. -/
structure Pass where
  solver : RegionSolver
  /-- The constraints that wait for the next pass. -/
  waiting : List RegionConstraint := []
  /-- The constraints that others have become. -/
  expanded : List RegionConstraint := []
  /-- Some constraint did not have to wait. -/
  decided : Bool := false

/-- Looks at constraints one after the other up to the first that fails. -/
def Pass.over (s : Subst) (p : Pass) : List RegionConstraint → Pass × Except Error Unit
  | [] => (p, .ok ())
  | c :: cs =>
    match p.solver.examine s c with
    | .error e => (p, .error e)
    | .ok .waits => Pass.over s { p with waiting := p.waiting ++ [c] } cs
    | .ok .holds => Pass.over s { p with decided := true } cs
    | .ok (.decides v r) =>
      let solver := { p.solver with resolution := (v, r) :: p.solver.resolution }
      Pass.over s { p with solver, decided := true } cs
    | .ok (.expands new) => Pass.over s { p with expanded := p.expanded ++ new, decided := true } cs

/-- Makes one pass: over the constraints, then over those that they became. -/
def pass (sv : RegionSolver) (s : Subst) (cs : List RegionConstraint) : Pass × Except Error Unit :=
  match Pass.over s { solver := sv } cs with
  | (p, .error e) => (p, .error e)
  | (p, .ok ()) => Pass.over s { p with expanded := [] } p.expanded

/-- Makes passes until one decides nothing, at most `remaining` of them, and counts them from `count`. -/
def passes (s : Subst) (sv : RegionSolver) (count : Nat) (cs : List RegionConstraint) :
    (remaining : Nat) → RegionSolver × Except Error (List RegionConstraint × Nat)
  | 0 =>
    if cs.isEmpty then (sv, .ok ([], count))
    else (sv, .error (.solverIterationLimit sv.limit cs.length))
  | remaining + 1 =>
    if cs.isEmpty then (sv, .ok ([], count))
    else
      match sv.pass s cs with
      | (p, .error e) => (p.solver, .error e)
      | (p, .ok ()) =>
        if p.decided then passes s p.solver (count + 1) p.waiting remaining
        else (p.solver, .ok (p.waiting, count + 1))

/-- The region variables issued so far, in order. -/
def issuedRegions (sv : RegionSolver) : List Region := (List.range sv.issued).map .numbered

/-- What is known of the issued region variables. -/
def solution (sv : RegionSolver) (pending : List RegionConstraint) (iterations : Nat) :
    RegionSolution where
  resolved := sv.issuedRegions.filterMap fun v => (sv.resolution.lookup v).map fun r => (v, r)
  unresolved := sv.issuedRegions.filter fun v => (sv.resolution.lookup v).isNone
  pending := pending
  iterations := iterations

/-- Solves the constraints under what is inferred of types so far. -/
def solve (sv : RegionSolver) (s : Subst) : RegionSolver × Except Error RegionSolution :=
  match passes s sv 0 sv.constraints sv.limit.toNat with
  | (sv, .error e) => (sv, .error e)
  | (sv, .ok (pending, iterations)) => (sv, .ok (sv.solution pending iterations))

/-! ## Bounds and variance -/

/-- Checks the bounds that are declared for a region. Only the static region has a static bound; any
other bound has to be a region that may be named. -/
def checkBounds (sv : RegionSolver) (r : Region) : List Region → Except Error Unit
  | [] => .ok ()
  | b :: bs =>
    if b = .static then
      if r = .static then sv.checkBounds r bs
      else .error (.regionBoundNotSatisfied r.name b.name)
    else if sv.isNamed b then sv.checkBounds r bs
    else .error (.unknownLifetimeBound r.name b.name)

/-- The pairs of regions of which a constraint says that the first outlives the second. -/
def relations (s : Subst) : RegionConstraint → List (Region × Region)
  | .outlives longer shorter => [(longer, shorter)]
  | .equal a b => [(a, b), (b, a)]
  | .typeOutlives type region => (s.apply type).regions.map fun r => (r, region)

/-- How a region may vary by the relations looked at so far. -/
structure Standing where
  variance : Variance := .bi
  /-- The region takes part in one of the relations. -/
  related : Bool := false

/-- Looks at one more relation. It leaves a region that outlives another free in one direction, and one
that is outlived in the other. -/
def Standing.mark (r : Region) (st : Standing) (e : Region × Region) : Standing :=
  let st := if e.1 = r then ⟨st.variance.meet .co, true⟩ else st
  if e.2 = r then ⟨st.variance.meet Variance.co.flip, true⟩ else st

/-- The variance of a region in a relation: one that only outlives others is covariant, one that is
only outlived is contravariant, and any other is invariant. -/
def classify (related : List (Region × Region)) (r : Region) : Variance :=
  let st := related.foldl (Standing.mark r) {}
  if st.related then st.variance else .inv

/-- The variance of a region by the declared bounds and all constraints. It is remembered. -/
def variance (sv : RegionSolver) (s : Subst) (r : Region) : RegionSolver × Variance :=
  match sv.variances.lookup r with
  | some v => (sv, v)
  | none =>
    let v := classify (RegionParam.edges sv.params ++ sv.constraints.flatMap (relations s)) r
    ({ sv with variances := (r, v) :: sv.variances }, v)

end RegionSolver

end Generics
