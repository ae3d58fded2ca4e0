import Generics.Capability.Bound
import Generics.Error

/-!
# Capabilities and implementations

A capability declares type parameters, associated types, methods, and *supertraits*: capabilities that
every type with this one must have too. An implementation gives a capability to all types of a form,
whose variables are its generics.
-/

namespace Generics

/-- A type parameter of a capability. -/
structure CapabilityParam where
  name : String
  variance : Variance
  /-- What the argument has to satisfy. -/
  bounds : List Bound
  /-- The argument taken when none is given. -/
  default : Option Ty

/-- A declared capability. -/
structure Capability where
  name : String
  params : List CapabilityParam
  /-- The names of its associated types. -/
  associated : List String
  /-- The methods and their function types. -/
  methods : List (String × Ty)
  supertraits : List String

namespace Capability

/-- The arguments with missing ones taken from the defaults of the parameters. -/
def fillArgs (c : Capability) (args : List Ty) : Except Error (List Ty) :=
  let given := args.length
  let wanted := c.params.length
  if wanted < given then
    .error (.typeMismatch s!"at most {wanted} arguments" s!"{given} arguments"
      s!"arguments of capability {c.name}")
  else do
    let rest ← (c.params.drop given).mapM fun p =>
      match p.default with
      | some t => .ok t
      | none => .error (.typeMismatch s!"{wanted} arguments" s!"{given} arguments"
          s!"parameter {p.name} of capability {c.name} has no default")
    return args ++ rest

end Capability

/-- A condition of an implementation: the type has to satisfy the bounds. -/
structure WhereClause where
  type : Ty
  bounds : List Bound

/-- A capability given to the types of a form. -/
structure Implementation where
  capability : String
  /-- The form of the types; its variables and those of the arguments are the generics. -/
  type : Ty
  args : List Ty
  clauses : List WhereClause
  /-- The associated types by name. -/
  associated : List (String × Ty)

/-- The type and the arguments of a capability as one type, which is what implementations are compared
by. -/
def Implementation.headerOf (t : Ty) (args : List Ty) : Ty := .tuple (t :: args)

namespace Implementation

/-- The type and the arguments of an implementation. -/
def header (i : Implementation) : Ty := headerOf i.type i.args

/-- The implementation as it is written, without its conditions. -/
def render (i : Implementation) : String :=
  s!"impl {Bound.applied i.capability i.args} for {i.type.render}"

instance : ToString Implementation := ⟨render⟩

end Implementation

end Generics
