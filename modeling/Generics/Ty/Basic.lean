import Generics.Region.Basic

/-!
# Types

The types that are inferred, compared and printed. A type is a tree: its leaves are primitives,
inference variables and names, its inner nodes are tuples, arrays, references, raw pointers,
functions and applied names. Equality of types is decidable, and `Ty.ind` is the induction
principle that gives a hypothesis for each member of a list of component types.
-/

namespace Generics

/-- The number of an inference variable. -/
abbrev VarId := UInt64

/-- A type as it takes part in inference. -/
inductive Ty where
  /-- A built-in type, by its name. -/
  | prim (name : String)
  /-- An inference variable. -/
  | var (id : VarId)
  | tuple (elems : List Ty)
  | array (elem : Ty) (size : UInt64)
  | ref (region : Region) (isMut : Bool) (inner : Ty)
  /-- A raw pointer, `*mut` or `*const`. -/
  | ptr (isMut : Bool) (inner : Ty)
  /-- A function. One without a return type returns the unit type. -/
  | fn (params : List Ty) (ret : Option Ty)
  /-- A nominal type, possibly applied to regions and types. -/
  | named (name : String) (regions : List Region) (args : List Ty)
deriving Repr, Inhabited

namespace Ty

/-- The empty tuple. -/
def unit : Ty := .tuple []

/-- The type of expressions that do not return. -/
def never : Ty := .prim "!"

/-- The type is the empty tuple. -/
def isUnit : Ty → Bool
  | .tuple [] => true
  | _ => false

/-- The return type of a function, where an absent one is read as unit. -/
def retOrUnit (ret : Option Ty) : Ty := ret.getD unit

/-- The immediate components of a type, in source order. -/
def children : Ty → List Ty
  | .prim _ | .var _ => []
  | .tuple elems => elems
  | .array elem _ => [elem]
  | .ref _ _ inner => [inner]
  | .ptr _ inner => [inner]
  | .fn params ret => params ++ ret.toList
  | .named _ _ args => args

theorem isUnit_iff {t : Ty} : t.isUnit = true ↔ t = unit := by
  unfold isUnit unit
  split <;> simp_all

/-! ## Induction -/

/-- Induction on types, with a hypothesis for every immediate component. -/
@[elab_as_elim, induction_eliminator]
theorem ind {motive : Ty → Prop}
    (prim : ∀ name, motive (.prim name))
    (var : ∀ id, motive (.var id))
    (tuple : ∀ elems, (∀ t ∈ elems, motive t) → motive (.tuple elems))
    (array : ∀ elem size, motive elem → motive (.array elem size))
    (ref : ∀ region isMut inner, motive inner → motive (.ref region isMut inner))
    (ptr : ∀ isMut inner, motive inner → motive (.ptr isMut inner))
    (fn : ∀ params ret, (∀ t ∈ params, motive t) → (∀ r, ret = some r → motive r) →
      motive (.fn params ret))
    (named : ∀ name regions args, (∀ t ∈ args, motive t) → motive (.named name regions args))
    (t : Ty) : motive t :=
  @Ty.rec motive (fun ts => ∀ t ∈ ts, motive t) (fun ret => ∀ r, ret = some r → motive r)
    prim var tuple array ref ptr fn named
    (by simp)
    (fun _ _ hd tl => by simp_all)
    (by simp)
    (fun _ h => by simp_all) t

/-! ## Equality -/

mutual

/-- Structural equality. -/
def beq : Ty → Ty → Bool
  | .prim a, .prim b => a = b
  | .var a, .var b => a = b
  | .tuple as, .tuple bs => beqList as bs
  | .array a n, .array b m => a.beq b && n = m
  | .ref r p a, .ref s q b => r = s && p = q && a.beq b
  | .ptr p a, .ptr q b => p = q && a.beq b
  | .fn as none, .fn bs none => beqList as bs
  | .fn as (some a), .fn bs (some b) => beqList as bs && a.beq b
  | .named n rs as, .named m ss bs => n = m && rs = ss && beqList as bs
  | _, _ => false

/-- Structural equality of lists of types. -/
def beqList : List Ty → List Ty → Bool
  | [], [] => true
  | a :: as, b :: bs => a.beq b && beqList as bs
  | _, _ => false

end

theorem beqList_iff {as : List Ty} (h : ∀ a ∈ as, ∀ b, a.beq b = true ↔ a = b) :
    ∀ bs, beqList as bs = true ↔ as = bs := by
  induction as with
  | nil => intro bs; cases bs <;> simp [beqList]
  | cons a as ih =>
    intro bs
    cases bs with
    | nil => simp [beqList]
    | cons b bs =>
      simp only [List.mem_cons, forall_eq_or_imp] at h
      simp [beqList, h.1, ih h.2]

theorem beq_iff (a b : Ty) : a.beq b = true ↔ a = b := by
  induction a generalizing b with
  | prim a => cases b <;> simp [beq]
  | var a => cases b <;> simp [beq]
  | tuple as ih => cases b <;> simp [beq, beqList_iff ih]
  | array a n ih => cases b <;> simp [beq, ih]
  | ref r p a ih => cases b <;> simp [beq, ih, and_assoc]
  | ptr p a ih => cases b <;> simp [beq, ih]
  | fn as ret ih ihr =>
    cases b with
    | fn bs ret' =>
      cases ret <;> cases ret' <;> simp [beq, beqList_iff ih, ihr]
    | _ => cases ret <;> simp [beq]
  | named n rs as ih => cases b <;> simp [beq, beqList_iff ih, and_assoc]

instance : DecidableEq Ty := fun a b => decidable_of_iff _ (beq_iff a b)

end Ty

end Generics
