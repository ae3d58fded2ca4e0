import Generics.Lists
import Generics.Ty.Variables

/-!
# Substitutions

A substitution binds inference variables to types. A stored type may mention variables that are bound
as well, so applying a substitution follows chains of bindings until no bound variable is left.

A substitution is *acyclic* when the bound variables can be ranked so that every stored type mentions
only bound variables of smaller rank. Chains of an acyclic substitution are no longer than the number
of its bindings, which is how far `Subst.apply` follows them.
-/

namespace Generics

/-- Bindings of inference variables to types. Each variable is bound at most once. -/
structure Subst where
  bindings : List (VarId × Ty)
deriving Repr

namespace Subst

/-- The substitution without bindings. -/
def empty : Subst := ⟨[]⟩

instance : Inhabited Subst := ⟨empty⟩

/-- The type stored for a variable. -/
def lookup (s : Subst) (id : VarId) : Option Ty := s.bindings.lookup id

/-- The variable has a binding. -/
def isBound (s : Subst) (id : VarId) : Bool := (s.lookup id).isSome

/-- The number of bindings. -/
def size (s : Subst) : Nat := s.bindings.length

/-- Stores a type for a variable, in place of what was stored before. -/
def insert (s : Subst) (id : VarId) (t : Ty) : Subst :=
  ⟨(id, t) :: s.bindings.filter fun b => b.1 ≠ id⟩

/-- The substitution with the given bindings; of two for one variable the later counts. -/
def ofList (bindings : List (VarId × Ty)) : Subst :=
  bindings.foldl (fun s b => s.insert b.1 b.2) empty

/-- The bindings in increasing order of variables. -/
def toSortedList (s : Subst) : List (VarId × Ty) :=
  s.bindings.mergeSort fun a b => a.1 ≤ b.1

/-- The type a variable stands for after following at most `depth` bindings in a row. -/
def resolve (s : Subst) : Nat → VarId → Ty
  | 0, id => .var id
  | depth + 1, id =>
    match s.lookup id with
    | none => .var id
    | some t => t.subst (s.resolve depth)

/-- Replaces the bound variables of a type, following chains of bindings. The substitution without
bindings leaves a type as it is. -/
def apply (s : Subst) (t : Ty) : Ty :=
  if s.bindings.isEmpty then t else t.subst (s.resolve s.size)

/-- Applies `other` to every stored type, then adds the bindings of `other` for unbound variables. -/
def compose (s other : Subst) : Subst :=
  ⟨s.bindings.map (fun b => (b.1, other.apply b.2)) ++
    other.bindings.filter fun b => !s.isBound b.1⟩

/-- The bound variables can be ranked so that stored types mention only smaller ones. -/
def Acyclic (s : Subst) : Prop :=
  ∃ rank : VarId → Nat, ∀ v t, s.lookup v = some t →
    ∀ w ∈ t.vars, s.isBound w = true → rank w < rank v

/-! ## Look-up -/

@[simp] theorem lookup_empty (v : VarId) : empty.lookup v = none := rfl

@[simp] theorem isBound_empty (v : VarId) : empty.isBound v = false := rfl

theorem lookup_insert_self (s : Subst) (v : VarId) (t : Ty) : (s.insert v t).lookup v = some t := by
  simp [insert, lookup]

theorem lookup_insert_of_ne (s : Subst) {v w : VarId} (t : Ty) (h : w ≠ v) :
    (s.insert v t).lookup w = s.lookup w := by
  have hne : (w == v) = false := by simpa using h
  simp only [insert, lookup, List.lookup_cons, hne]
  induction s.bindings with
  | nil => rfl
  | cons b bs ih =>
    obtain ⟨x, u⟩ := b
    by_cases hx : x = v
    · rw [List.filter_cons_of_neg (by simp [hx]), ih, List.lookup_cons, hx, hne]
    · rw [List.filter_cons_of_pos (by simp [hx]), List.lookup_cons, List.lookup_cons, ih]

theorem isBound_iff {s : Subst} {v : VarId} : s.isBound v = true ↔ ∃ t, s.lookup v = some t :=
  Option.isSome_iff_exists

theorem not_isBound_iff {s : Subst} {v : VarId} : s.isBound v = false ↔ s.lookup v = none := by
  simp [isBound]

theorem exists_mem_of_isBound {s : Subst} {v : VarId} (h : s.isBound v = true) :
    ∃ b ∈ s.bindings, b.1 = v := by
  obtain ⟨t, ht⟩ := isBound_iff.mp h
  exact ⟨(v, t), mem_of_lookup ht, rfl⟩

theorem isBound_insert (s : Subst) (v w : VarId) (t : Ty) :
    (s.insert v t).isBound w = (decide (w = v) || s.isBound w) := by
  by_cases h : w = v
  · subst h; simp [isBound, lookup_insert_self]
  · simp [isBound, lookup_insert_of_ne s t h, h]

/-! ## Following bindings -/

theorem resolve_of_unbound {s : Subst} {v : VarId} (h : s.isBound v = false) (depth : Nat) :
    s.resolve depth v = .var v := by
  cases depth with
  | zero => rfl
  | succ depth => simp [resolve, not_isBound_iff.mp h]

theorem apply_of_isEmpty {s : Subst} (h : s.bindings.isEmpty = true) (t : Ty) : s.apply t = t := by
  simp [apply, h]

/-- A type without bound variables keeps its variables. -/
theorem subst_resolve_of_unbound {s : Subst} {t : Ty} (h : ∀ v ∈ t.vars, s.isBound v = false)
    (depth : Nat) : t.subst (s.resolve depth) = t.subst .var :=
  Ty.subst_congr fun v hv => resolve_of_unbound (h v hv) depth

end Subst

end Generics
