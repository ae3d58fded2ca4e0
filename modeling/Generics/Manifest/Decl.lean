import Generics.Alias.Basic
import Generics.Position

/-!
# Declarations of a manifest

A manifest as it is written: the declarations and the units to be checked. Types, bounds and constant
expressions are still texts. A text that is left out is empty.
-/

namespace Generics

/-- Something written in a file, and where. -/
structure Located (α : Type) where
  value : α
  pos : Position

/-- A type parameter of a capability. -/
structure ParamDecl where
  name : String
  variance : String
  bounds : List String
  default : String

/-- A capability. -/
structure CapabilityDecl where
  name : String
  params : List ParamDecl
  associated : List String
  supertraits : List String
  /-- The methods and their function types. -/
  methods : List (String × String)

/-- A condition of an implementation. -/
structure WhereDecl where
  type : String
  bounds : List String

/-- An implementation. Its generics are written as variables. -/
structure ImplementationDecl where
  capability : String
  type : String
  args : List String
  clauses : List WhereDecl
  associated : List (String × String)

/-- A const parameter; its default is an expression. -/
structure ConstParamDecl where
  name : String
  type : String
  default : String

/-- The const parameters of an item. -/
structure ConstDecl where
  owner : String
  params : List ConstParamDecl

/-- A region parameter of a signature. -/
structure RegionDecl where
  name : String
  bounds : List String

/-- One step of a unit with everything that was written in it. -/
structure StepDecl where
  letName : String
  type : String
  unify : List String
  require : String
  bounds : List String
  project : String
  capability : String
  item : String
  bindAs : String
  signature : String
  receiver : String
  params : List String
  ret : String
  regions : List RegionDecl
  constraints : List String
  instantiate : String
  args : List (String × String)

/-- A unit: steps that are checked in one session. -/
structure UnitDecl where
  name : String
  steps : List (Located StepDecl)

/-- A manifest as it is written. -/
structure ManifestDecl where
  capabilities : List (Located CapabilityDecl) := []
  implementations : List (Located ImplementationDecl) := []
  aliases : List (Located TypeAlias) := []
  consts : List (Located ConstDecl) := []
  units : List UnitDecl := []

end Generics
