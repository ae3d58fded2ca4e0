import Generics.Ty.Basic

/-!
# Variables of a type

The inference variables of a type in source order, and the replacement of variables by types, all at once
or one after the other. Replacement rebuilds the type, so in its result every function has a return type.
-/

namespace Generics.Ty

mutual

/-- The inference variables of a type in source order, with repetitions. -/
def vars : Ty → List VarId
  | .prim _ => []
  | .var id => [id]
  | .tuple elems => varsList elems
  | .array elem _ => elem.vars
  | .ref _ _ inner => inner.vars
  | .ptr _ inner => inner.vars
  | .fn params none => varsList params
  | .fn params (some ret) => varsList params ++ ret.vars
  | .named _ _ args => varsList args

/-- The inference variables of a list of types, in source order. -/
def varsList : List Ty → List VarId
  | [] => []
  | t :: ts => t.vars ++ varsList ts

end

/-- The variable appears somewhere inside the type. -/
def occurs (id : VarId) (t : Ty) : Bool := t.vars.contains id

/-- The distinct inference variables of a type in increasing order. -/
def freeVars (t : Ty) : List VarId := t.vars.eraseDups.mergeSort

/-- The type has no inference variables. -/
def isGround (t : Ty) : Bool := t.vars.isEmpty

mutual

/-- Replaces every variable of the type by its image. -/
def subst (image : VarId → Ty) : Ty → Ty
  | .prim name => .prim name
  | .var id => image id
  | .tuple elems => .tuple (substList image elems)
  | .array elem size => .array (elem.subst image) size
  | .ref region isMut inner => .ref region isMut (inner.subst image)
  | .ptr isMut inner => .ptr isMut (inner.subst image)
  | .fn params none => .fn (substList image params) (some unit)
  | .fn params (some ret) => .fn (substList image params) (some (ret.subst image))
  | .named name regions args => .named name regions (substList image args)

/-- Replaces every variable of each type by its image. -/
def substList (image : VarId → Ty) : List Ty → List Ty
  | [] => []
  | t :: ts => t.subst image :: substList image ts

end

mutual

/-- Rebuilds the type with each variable replaced by what `f` returns. Variables are visited in source
order. -/
def substM {m : Type → Type} [Monad m] (f : VarId → m Ty) : Ty → m Ty
  | .prim name => pure (.prim name)
  | .var id => f id
  | .tuple elems => return .tuple (← substListM f elems)
  | .array elem size => return .array (← elem.substM f) size
  | .ref region isMut inner => return .ref region isMut (← inner.substM f)
  | .ptr isMut inner => return .ptr isMut (← inner.substM f)
  | .fn params none => return .fn (← substListM f params) (some unit)
  | .fn params (some ret) => do
    let params ← substListM f params
    return .fn params (some (← ret.substM f))
  | .named name regions args => return .named name regions (← substListM f args)

/-- Rebuilds each type of a list with its variables replaced. -/
def substListM {m : Type → Type} [Monad m] (f : VarId → m Ty) : List Ty → m (List Ty)
  | [] => pure []
  | t :: ts => do
    let t ← t.substM f
    return t :: (← substListM f ts)

end

/-! ## Lists of types -/

@[simp] theorem varsList_eq_flatMap (ts : List Ty) : varsList ts = ts.flatMap vars := by
  induction ts with
  | nil => rfl
  | cons t ts ih => simp [varsList, ih]

@[simp] theorem substList_eq_map (image : VarId → Ty) (ts : List Ty) :
    substList image ts = ts.map (subst image) := by
  induction ts with
  | nil => rfl
  | cons t ts ih => simp [substList, ih]

/-! ## Laws of replacement -/

theorem mem_vars_subst {image : VarId → Ty} {t : Ty} {w : VarId} :
    w ∈ (t.subst image).vars ↔ ∃ v ∈ t.vars, w ∈ (image v).vars := by
  induction t with
  | prim name => simp [subst, vars]
  | var id => simp [subst, vars]
  | tuple elems ih => simp only [subst, vars, varsList_eq_flatMap, substList_eq_map]; grind
  | array elem size ih => simpa [subst, vars] using ih
  | ref region isMut inner ih => simpa [subst, vars] using ih
  | ptr isMut inner ih => simpa [subst, vars] using ih
  | fn params ret ih ihr =>
    cases ret with
    | none =>
      simp only [subst, vars, varsList_eq_flatMap, substList_eq_map, unit]
      grind
    | some r =>
      have hr := ihr r rfl
      simp only [subst, vars, varsList_eq_flatMap, substList_eq_map]
      grind
  | named name regions args ih =>
    simp only [subst, vars, varsList_eq_flatMap, substList_eq_map]; grind

theorem subst_subst (f g : VarId → Ty) (t : Ty) :
    (t.subst f).subst g = t.subst fun v => (f v).subst g := by
  induction t with
  | prim name => rfl
  | var id => rfl
  | tuple elems ih => simpa [subst] using ih
  | array elem size ih => simp [subst, ih]
  | ref region isMut inner ih => simp [subst, ih]
  | ptr isMut inner ih => simp [subst, ih]
  | fn params ret ih ihr =>
    cases ret with
    | none => simpa [subst, unit] using ih
    | some r => simpa [subst, ihr r rfl] using ih
  | named name regions args ih => simpa [subst] using ih

/-- Replacement only looks at the variables of the type. -/
theorem subst_congr {f g : VarId → Ty} {t : Ty} (h : ∀ v ∈ t.vars, f v = g v) :
    t.subst f = t.subst g := by
  induction t with
  | prim name => rfl
  | var id => exact h id (by simp [vars])
  | tuple elems ih =>
    simp only [vars, varsList_eq_flatMap, List.mem_flatMap] at h
    simp only [subst, substList_eq_map, tuple.injEq, List.map_inj_left]
    exact fun t ht => ih t ht fun v hv => h v ⟨t, ht, hv⟩
  | array elem size ih => simp [subst, ih h]
  | ref region isMut inner ih => simp [subst, ih h]
  | ptr isMut inner ih => simp [subst, ih h]
  | fn params ret ih ihr =>
    have hparams : params.map (subst f) = params.map (subst g) := by
      refine List.map_inj_left.mpr fun t ht => ih t ht fun v hv => h v ?_
      cases ret <;> simp only [vars, varsList_eq_flatMap, List.mem_append, List.mem_flatMap]
      · exact ⟨t, ht, hv⟩
      · exact .inl ⟨t, ht, hv⟩
    cases ret with
    | none => simp [subst, hparams]
    | some r => simp [subst, hparams, ihr r rfl fun v hv => h v (by simp [vars, hv])]
  | named name regions args ih =>
    simp only [vars, varsList_eq_flatMap, List.mem_flatMap] at h
    simp only [subst, substList_eq_map, named.injEq, List.map_inj_left, true_and]
    exact fun t ht => ih t ht fun v hv => h v ⟨t, ht, hv⟩

/-! ## Size -/

mutual

/-- The number of nodes of a type, where an absent return type counts as unit. -/
def size : Ty → Nat
  | .prim _ => 1
  | .var _ => 1
  | .tuple elems => sizeList elems + 1
  | .array elem _ => elem.size + 1
  | .ref _ _ inner => inner.size + 1
  | .ptr _ inner => inner.size + 1
  | .fn params none => sizeList params + 2
  | .fn params (some ret) => sizeList params + ret.size + 1
  | .named _ _ args => sizeList args + 1

/-- The number of nodes of the types of a list. -/
def sizeList : List Ty → Nat
  | [] => 0
  | t :: ts => t.size + sizeList ts

end

@[simp] theorem sizeList_append (ts us : List Ty) :
    sizeList (ts ++ us) = sizeList ts + sizeList us := by
  induction ts with
  | nil => simp [sizeList]
  | cons t ts ih => simp [sizeList, ih, Nat.add_assoc]

/-- Lists whose types have the same sizes in each place have the same size. -/
theorem sizeList_map_congr {f : Ty → Ty} {ts : List Ty} (h : ∀ t ∈ ts, (f t).size = t.size) :
    sizeList (ts.map f) = sizeList ts := by
  induction ts with
  | nil => rfl
  | cons t ts ih =>
    obtain ⟨ht, hts⟩ := List.forall_mem_cons.mp h
    simp [sizeList, ht, ih hts]

theorem size_pos (t : Ty) : 0 < t.size := by
  cases t with
  | fn params ret => cases ret <;> simp [size]
  | _ => simp [size]

@[simp] theorem size_retOrUnit_none : (retOrUnit none).size = 1 := rfl

/-- Renaming variables keeps the size. -/
theorem size_subst_var {f : VarId → VarId} (t : Ty) :
    (t.subst fun v => .var (f v)).size = t.size := by
  induction t with
  | prim name => rfl
  | var id => rfl
  | tuple elems ih => simp [subst, size, sizeList_map_congr ih]
  | array elem size ih => simp [subst, Ty.size, ih]
  | ref region isMut inner ih => simp [subst, size, ih]
  | ptr isMut inner ih => simp [subst, size, ih]
  | fn params ret ih ihr =>
    cases ret with
    | none => simp [subst, size, sizeList_map_congr ih, unit, sizeList]
    | some r => simp [subst, size, sizeList_map_congr ih, ihr r rfl]
  | named name regions args ih => simp [subst, size, sizeList_map_congr ih]

theorem occurs_iff {id : VarId} {t : Ty} : t.occurs id = true ↔ id ∈ t.vars := by
  simp [occurs]

theorem isGround_iff {t : Ty} : t.isGround = true ↔ t.vars = [] := by
  simp [isGround]

end Generics.Ty
