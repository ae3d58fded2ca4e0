import Generics.Capability.Catalog
import Generics.Subst.Match

/-!
# Selecting an implementation

The implementation of a capability for a type is the first one whose header matches the type and the
arguments. Its generics are renamed apart from the variables of the target before matching.
-/

namespace Generics

/-- An implementation chosen for a type, with what its generics stand for. -/
structure Selection where
  implementation : Implementation
  subst : Subst
  fresher : Fresher
  /-- The new names of the generics. -/
  names : Renaming

namespace Selection

/-- The selection of an implementation for a target, if its header matches. -/
def of? (i : Implementation) (target : Ty) : Option Selection :=
  let (pattern, names, fresher) := (Fresher.after [target]).renameApart [] i.header
  match Subst.empty.matchPattern pattern target with
  | (subst, true) => some ⟨i, subst, fresher, names⟩
  | (_, false) => none

/-- A type written with the generics of the implementation, in terms of the target. Variables that are
no generics of the header get fresh names, which later types share. -/
def instantiate (sel : Selection) (t : Ty) : Ty × Selection :=
  let (t, names, fresher) := sel.fresher.renameApart sel.names t
  (sel.subst.apply t, { sel with names, fresher })

/-- Instantiates types one after the other. -/
def instantiateAll (sel : Selection) : List Ty → List Ty × Selection
  | [] => ([], sel)
  | t :: ts =>
    let (t, sel) := sel.instantiate t
    let (ts, sel) := sel.instantiateAll ts
    (t :: ts, sel)

/-- Instantiates the arguments of bounds one after the other. -/
def instantiateBounds (sel : Selection) : List Bound → List Bound × Selection
  | [] => ([], sel)
  | b :: bs =>
    let (args, sel) := sel.instantiateAll b.args
    let (bs, sel) := sel.instantiateBounds bs
    ({ b with args } :: bs, sel)

end Selection

/-- The first implementation of a capability that matches a type and arguments. -/
def Catalog.select? (c : Catalog) (capability : String) (t : Ty) (args : List Ty) :
    Option Selection :=
  (c.implementationsOf capability).findSome? fun i => Selection.of? i (Implementation.headerOf t args)

end Generics
