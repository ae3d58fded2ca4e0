import Generics.Alias.Cache
import Generics.Capability.Registry
import Generics.Const.Context
import Generics.Manifest.Basic
import Generics.Session.Diagnostic

/-!
# Declaring what a manifest declares

The declarations are made in the order aliases, capabilities, const parameters, implementations. One
that fails is reported and left out.
-/

namespace Generics

open Text

/-- What the units of a manifest share. -/
structure Declarations where
  registry : Registry := {}
  aliases : Aliases := .empty
  /-- The items with const parameters by name. -/
  consts : List (String × Const.Context) := []

/-- Work that expands aliases and may fail. -/
abbrev ExpandM := ExceptT Problem (StateM Aliases)

namespace ExpandM

/-- The type that a text stands for. -/
def type (text : String) : ExpandM Ty := fun aliases =>
  let (aliases, outcome) := aliases.expand text
  (outcome.mapError .coded, aliases)

/-- Splits `for<'a, 'b> body` into the quantified regions and the body. -/
def quantifier (text : String) : List Region × String :=
  match text.toList with
  | 'f' :: 'o' :: 'r' :: '<' :: rest =>
    let (regions, body) := cutAt '>' (String.ofList rest)
    ((splitTopLevel ',' regions).map Region.mk, trim (Utf8.toText body))
  | _ => ([], text)

/-- Reads a bound such as `Display`, `Into<i32>`, `for<'a> Fn<&'a u8>` or `'a`. -/
def bound (text : String) : ExpandM Bound := do
  let text := trim text
  if WrittenConstraint.isRegion text.toList then return { kind := .region, region := ⟨text⟩ }
  let (quantified, body) := quantifier text
  match ← type body with
  | .named name _ args =>
    let kind : BoundKind :=
      if !quantified.isEmpty then .higherRanked else if args.isEmpty then .simple else .parameterized
    return { kind, capability := name, args, quantified }
  | _ => throw (.coded (.malformedType body "a bound must name a capability"))

/-- The type parameter of a declaration. -/
def param (p : ParamDecl) : ExpandM CapabilityParam := do
  let some variance := Variance.parse? p.variance
    | throw (.plain s!"parameter {p.name}: unknown variance {quote p.variance}")
  let bounds ← p.bounds.mapM bound
  let default ← if p.default = "" then pure none else some <$> type p.default
  return { name := p.name, variance, bounds, default }

/-- A method of a declaration. -/
def method (decl : String × String) : ExpandM (String × Ty) := do
  let (name, text) := decl
  match ← type text with
  | .fn params ret => return (name, .fn params ret)
  | _ => throw (.coded (.malformedType text s!"method {name} must have a function type"))

/-- The capability of a declaration. -/
def capability (decl : CapabilityDecl) : ExpandM Capability := do
  let params ← decl.params.mapM param
  let methods ← decl.methods.mapM method
  return { name := decl.name, params, associated := decl.associated, methods
           supertraits := decl.supertraits }

/-- The condition of a declaration. -/
def clause (decl : WhereDecl) : ExpandM WhereClause := do
  return ⟨← type decl.type, ← decl.bounds.mapM bound⟩

/-- The implementation of a declaration. -/
def implementation (decl : ImplementationDecl) : ExpandM Implementation := do
  let t ← type decl.type
  let args ← decl.args.mapM type
  let clauses ← decl.clauses.mapM clause
  let associated ← decl.associated.mapM fun (name, text) => do return (name, ← type text)
  return { capability := decl.capability, type := t, args, clauses, associated }

/-- A const parameter of a declaration, without its default. -/
def constParam (decl : ConstParamDecl) : ExpandM Const.Param := do
  return ⟨decl.name, ← type decl.type, none⟩

end ExpandM

/-- The values of the defaults of const parameters. Each is bound in turn, so that it is checked against
its type. -/
def Const.defaults (e : Const.Evaluator) (probe : Const.Context) :
    List ConstParamDecl → Const.Evaluator × Except Error (List (Option ConstValue))
  | [] => (e, .ok [])
  | p :: ps =>
    if p.default = "" then
      let (e, rest) := Const.defaults e probe ps
      (e, rest.map (none :: ·))
    else
      match probe.bindExpr e p.name p.default with
      | (e, _, .error err) => (e, .error err)
      | (e, probe, .ok ()) =>
        let (e, rest) := Const.defaults e probe ps
        (e, rest.map (probe.value? p.name :: ·))

namespace Declarations

/-- Does work that expands aliases. -/
def expanding {α : Type} (d : Declarations) (work : ExpandM α) : Declarations × Except Problem α :=
  let (outcome, aliases) := work.run.run d.aliases
  ({ d with aliases }, outcome)

/-- Declares an alias. -/
def addAlias (d : Declarations) (a : TypeAlias) : Declarations × Except Problem Unit :=
  let (aliases, outcome) := d.aliases.declare a
  ({ d with aliases }, outcome.mapError .coded)

/-- Declares a capability. -/
def addCapability (d : Declarations) (decl : CapabilityDecl) : Declarations × Except Problem Unit :=
  match d.expanding (ExpandM.capability decl) with
  | (d, .error p) => (d, .error p)
  | (d, .ok c) =>
    let (registry, outcome) := d.registry.declare c
    ({ d with registry }, outcome.mapError .coded)

/-- Declares an implementation. -/
def addImplementation (d : Declarations) (decl : ImplementationDecl) :
    Declarations × Except Problem Unit :=
  match d.expanding (ExpandM.implementation decl) with
  | (d, .error p) => (d, .error p)
  | (d, .ok i) =>
    let (registry, outcome) := d.registry.implement i
    ({ d with registry }, outcome.mapError .coded)

/-- Declares the const parameters of an item, in place of earlier ones. -/
def addConst (d : Declarations) (decl : ConstDecl) : Declarations × Except Problem Unit :=
  match d.expanding (decl.params.mapM ExpandM.constParam) with
  | (d, .error p) => (d, .error p)
  | (d, .ok params) =>
    match (Const.defaults {} ⟨decl.owner, params, []⟩ decl.params).2 with
    | .error e => (d, .error (.coded e))
    | .ok values =>
      let params := (params.zip values).map fun (p, value) => { p with default := value }
      let others := d.consts.filter fun c => c.1 ≠ decl.owner
      ({ d with consts := (decl.owner, ⟨decl.owner, params, []⟩) :: others }, .ok ())

/-- Makes declarations one after the other and lists the diagnostics of those that fail. -/
def addAll {α : Type} (add : Declarations → α → Declarations × Except Problem Unit)
    (construct : α → String) (d : Declarations) :
    List (Located α) → Declarations × List Diagnostic
  | [] => (d, [])
  | decl :: decls =>
    let (d, outcome) := add d decl.value
    let (d, rest) := addAll add construct d decls
    match outcome with
    | .ok () => (d, rest)
    | .error problem => (d, ⟨⟨construct decl.value, some decl.pos⟩, problem⟩ :: rest)

/-- Makes the declarations of a manifest. -/
def ofManifest (m : Manifest) : Declarations × List Diagnostic :=
  let (d, aliases) := addAll addAlias (fun a => s!"alias {a.name}") {} m.aliases
  let (d, capabilities) := addAll addCapability (fun c => s!"capability {c.name}") d m.capabilities
  let (d, consts) := addAll addConst (fun c => s!"const {c.owner}") d m.consts
  let (d, implementations) :=
    addAll addImplementation (fun i => s!"impl {i.capability} for {i.type}") d m.implementations
  (d, aliases ++ capabilities ++ consts ++ implementations)

end Declarations

end Generics
