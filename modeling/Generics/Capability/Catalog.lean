import Generics.Capability.Basic
import Generics.Fresh
import Generics.Subst.Unify

/-!
# The catalog of capabilities

All declared capabilities and implementations. A catalog only grows. No two capabilities have the same
name, and no two implementations of a capability overlap, which means that no type and arguments have
the form of both.
-/

namespace Generics

/-- The declared capabilities and implementations, each in order of declaration. -/
structure Catalog where
  capabilities : List Capability := []
  implementations : List Implementation := []

namespace Catalog

/-- The number of declarations made. -/
def generation (c : Catalog) : Nat := c.capabilities.length + c.implementations.length

/-- The capability of a name. -/
def find? (c : Catalog) (name : String) : Option Capability :=
  c.capabilities.find? fun cap => cap.name = name

/-- The capability of a name, which has to be declared. -/
def find (c : Catalog) (name : String) : Except Error Capability :=
  match c.find? name with
  | some cap => .ok cap
  | none => .error (.capabilityNotFound name)

/-- The implementations of a capability in order of declaration. -/
def implementationsOf (c : Catalog) (capability : String) : List Implementation :=
  c.implementations.filter fun i => i.capability = capability

/-! ## Supertraits -/

/-- How many supertraits in a row are followed. -/
def maxSupertraitDepth : Nat := 64

/-- Follows the pending supertraits, each with its depth, and lists them in depth-first order. The
capabilities not yet visited are in `remaining`. -/
def followSupertraits (root : String) (visited : List String) (remaining : List Capability)
    (pending : List (String × Nat)) : Except Error (List String) :=
  match pending with
  | [] => .ok []
  | (name, depth) :: pending =>
    if name ∈ visited then followSupertraits root visited remaining pending
    else if maxSupertraitDepth < depth then
      .error (.recursionDepthExceeded root maxSupertraitDepth [])
    else
      match h : remaining.find? fun cap => cap.name = name with
      | none => .error (.capabilityNotFound name)
      | some cap =>
        have : (remaining.eraseP fun cap => cap.name = name).length < remaining.length := by
          have hmem := List.mem_of_find?_eq_some h
          have hpos := List.length_pos_of_mem hmem
          have hname := List.find?_some h
          rw [List.length_eraseP_of_mem hmem hname]
          omega
        (followSupertraits root (name :: visited) (remaining.eraseP fun cap => cap.name = name)
          (cap.supertraits.map (·, depth + 1) ++ pending)).map (name :: ·)
termination_by (remaining.length, pending.length)

/-- The capabilities that a capability requires, directly or through others, in depth-first order. -/
def supertraits (c : Catalog) (name : String) : Except Error (List String) := do
  let cap ← c.find name
  followSupertraits name [name] (c.capabilities.eraseP fun cap => cap.name = name)
    (cap.supertraits.map (·, 1))

/-! ## Declaring -/

/-- The supertraits that are declared already have defaults for all parameters. -/
def checkSupertraits (c : Catalog) (capability : String) : List String → Except Error Unit
  | [] => .ok ()
  | name :: names =>
    match c.find? name with
    | none => c.checkSupertraits capability names
    | some super =>
      match super.fillArgs [] with
      | .ok _ => c.checkSupertraits capability names
      | .error _ =>
        .error (.typeMismatch "a supertrait whose parameters all have defaults" name
          s!"supertraits of capability {capability}")

/-- Declares a capability. -/
def declare (c : Catalog) (cap : Capability) : Except Error Catalog :=
  if (c.find? cap.name).isSome then .error (.conflictingCapability cap.name)
  else do
    c.checkSupertraits cap.name cap.supertraits
    return { c with capabilities := c.capabilities ++ [cap] }

/-- Two headers have an instance in common once their variables are told apart. -/
def overlap (candidate existing : Ty) : Bool :=
  let (existing, _) := (Fresher.after [candidate]).renameAlone existing
  match (Subst.empty.unify candidate existing).2 with
  | .ok () => true
  | .error _ => false

/-- An implementation does not overlap one that is declared already. -/
def checkCoherence (c : Catalog) (i : Implementation) : Except Error Unit := do
  let cap ← c.find i.capability
  let args ← cap.fillArgs i.args
  let candidate := Implementation.headerOf i.type args
  match (c.implementationsOf cap.name).find? fun existing => overlap candidate existing.header with
  | some existing =>
    .error (.conflictingImplementation cap.name i.type.render existing.render)
  | none => return

/-- An implementation has the associated types of its capability and no others. -/
def checkAssociated (cap : Capability) (i : Implementation) : Except Error Unit :=
  match i.associated.find? fun a => a.1 ∉ cap.associated with
  | some (name, _) => .error (.unknownAssociatedType cap.name name)
  | none =>
    match cap.associated.find? fun name => (i.associated.lookup name).isNone with
    | some name => .error (.missingAssociatedType cap.name i.type.render name)
    | none => .ok ()

/-- Declares an implementation. It is stored with all its arguments filled in. -/
def implement (c : Catalog) (i : Implementation) : Except Error Catalog := do
  let cap ← c.find i.capability
  c.checkCoherence i
  checkAssociated cap i
  let args ← cap.fillArgs i.args
  return { c with implementations := c.implementations ++ [{ i with args }] }

end Catalog

end Generics
