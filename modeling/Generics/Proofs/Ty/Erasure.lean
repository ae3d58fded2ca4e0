import Generics.Subst.Unify

/-!
# Types without regions

Unification does not look at regions and reads an absent return type as unit. `Ty.erase` forgets
both, so that two types which unification takes for the same have the same erasure. The *value* of a
type under an assignment of types to variables is what the assignment makes of it, erased.

## Main results

* `erase_subst`: erasing after a replacement is replacing erased types;
* `valueAt_subst`: the value of a type after a replacement is its value under the composed
  assignment;
* `valueAt_var_ne_of_mem_vars`: no assignment gives a variable and a type that properly contains it
  the same value.
-/

namespace Generics.Ty

mutual

/-- The type without its regions. An absent return type is read as unit. -/
def erase : Ty → Ty
  | .prim name => .prim name
  | .var id => .var id
  | .tuple elems => .tuple (eraseList elems)
  | .array elem size => .array elem.erase size
  | .ref _ isMut inner => .ref .elided isMut inner.erase
  | .ptr isMut inner => .ptr isMut inner.erase
  | .fn params none => .fn (eraseList params) (some unit)
  | .fn params (some ret) => .fn (eraseList params) (some ret.erase)
  | .named name _ args => .named name [] (eraseList args)

/-- The types of a list without their regions. -/
def eraseList : List Ty → List Ty
  | [] => []
  | t :: ts => t.erase :: eraseList ts

end

/-- The types of a list are erased one by one. -/
@[simp] theorem eraseList_eq_map (ts : List Ty) : eraseList ts = ts.map erase := by
  induction ts with
  | nil => rfl
  | cons t ts ih => simp [eraseList, ih]

/-- Erasing after a replacement is replacing in the erased type by erased types. -/
theorem erase_subst (f : VarId → Ty) (t : Ty) :
    (t.subst f).erase = t.erase.subst fun v => (f v).erase := by
  induction t with
  | prim name => rfl
  | var id => rfl
  | tuple elems ih => simpa [subst, erase] using ih
  | array elem size ih => simp [subst, erase, ih]
  | ref region isMut inner ih => simp [subst, erase, ih]
  | ptr isMut inner ih => simp [subst, erase, ih]
  | fn params ret ih ihr =>
    cases ret with
    | none => simpa [subst, erase, unit] using ih
    | some r => simpa [subst, erase, ihr r rfl] using ih
  | named name regions args ih => simpa [subst, erase] using ih

/-- Erasing keeps the variables. -/
theorem mem_vars_erase {t : Ty} {v : VarId} : v ∈ t.erase.vars ↔ v ∈ t.vars := by
  induction t with
  | prim name => rfl
  | var id => rfl
  | tuple elems ih => simp only [erase, vars, varsList_eq_flatMap, eraseList_eq_map]; grind
  | array elem size ih => exact ih
  | ref region isMut inner ih => exact ih
  | ptr isMut inner ih => exact ih
  | fn params ret ih ihr =>
    cases ret with
    | none => simp only [erase, vars, varsList_eq_flatMap, eraseList_eq_map, unit]; grind
    | some r =>
      have hr := ihr r rfl
      simp only [erase, vars, varsList_eq_flatMap, eraseList_eq_map]
      grind
  | named name regions args ih =>
    simp only [erase, vars, varsList_eq_flatMap, eraseList_eq_map]; grind

/-! ## Values -/

/-- What an assignment of types to variables makes of a type, without regions. -/
def valueAt (σ : VarId → Ty) (t : Ty) : Ty := (t.subst σ).erase

section

variable (σ : VarId → Ty)

theorem valueAt_var (v : VarId) : (var v).valueAt σ = (σ v).erase := rfl

theorem valueAt_prim (name : String) : (prim name).valueAt σ = .prim name := rfl

theorem valueAt_tuple (elems : List Ty) :
    (tuple elems).valueAt σ = .tuple (elems.map (valueAt σ)) := by
  simp [valueAt, subst, erase]

theorem valueAt_array (elem : Ty) (size : UInt64) :
    (array elem size).valueAt σ = .array (elem.valueAt σ) size := rfl

theorem valueAt_ref (region : Region) (isMut : Bool) (inner : Ty) :
    (ref region isMut inner).valueAt σ = .ref .elided isMut (inner.valueAt σ) := rfl

theorem valueAt_ptr (isMut : Bool) (inner : Ty) :
    (ptr isMut inner).valueAt σ = .ptr isMut (inner.valueAt σ) := rfl

theorem valueAt_fn (params : List Ty) (ret : Option Ty) :
    (fn params ret).valueAt σ
      = .fn (params.map (valueAt σ)) (some ((retOrUnit ret).valueAt σ)) := by
  cases ret with
  | none => simp [valueAt, subst, erase, retOrUnit, unit]
  | some r => simp [valueAt, subst, erase, retOrUnit]

theorem valueAt_named (name : String) (regions : List Region) (args : List Ty) :
    (named name regions args).valueAt σ = .named name [] (args.map (valueAt σ)) := by
  simp [valueAt, subst, erase]

end

/-- Under the assignment of variables to themselves, the value of a type is its erasure. -/
theorem valueAt_self (t : Ty) : t.valueAt .var = t.erase := by
  induction t with
  | prim name => rfl
  | var id => rfl
  | tuple elems ih => simpa [valueAt_tuple, erase] using ih
  | array elem size ih => simp [valueAt_array, erase, ih]
  | ref region isMut inner ih => simp [valueAt_ref, erase, ih]
  | ptr isMut inner ih => simp [valueAt_ptr, erase, ih]
  | fn params ret ih ihr =>
    cases ret with
    | none => simpa [valueAt_fn, erase, retOrUnit, unit, valueAt_tuple] using ih
    | some r => simpa [valueAt_fn, erase, retOrUnit, ihr r rfl] using ih
  | named name regions args ih => simpa [valueAt_named, erase] using ih

/-- The value of a type after a replacement that keeps the value of each variable. -/
theorem valueAt_subst {σ f : VarId → Ty} (h : ∀ v, (f v).valueAt σ = (var v).valueAt σ) (t : Ty) :
    (t.subst f).valueAt σ = t.valueAt σ := by
  have himages : (fun v => ((f v).subst σ).erase) = fun v => (σ v).erase := funext h
  rw [valueAt, subst_subst, erase_subst, himages, ← erase_subst, valueAt]

/-- The value of a type depends on the values of its variables only. -/
theorem valueAt_congr {σ τ : VarId → Ty} {t : Ty} (h : ∀ v ∈ t.vars, σ v = τ v) :
    t.valueAt σ = t.valueAt τ :=
  congrArg erase (subst_congr h)

/-- The value of a renamed type is the type's value under the renamed assignment. -/
theorem valueAt_rename (ρ : VarId → VarId) (σ : VarId → Ty) (t : Ty) :
    (t.subst fun v => .var (ρ v)).valueAt σ = t.valueAt fun v => σ (ρ v) := by
  rw [valueAt, subst_subst]
  rfl

/-! ## Values of components -/

/-- A variable of a type is the type itself or a variable of one of its components. -/
theorem mem_vars_iff_parts {t : Ty} {v : VarId} :
    v ∈ t.vars ↔ t = .var v ∨ ∃ p ∈ t.parts, v ∈ p.vars := by
  cases t with
  | fn params ret => cases ret <;> simp [vars, parts, retOrUnit, unit, or_and_right, exists_or]
  | var id => simp [vars, parts, children, eq_comm]
  | _ => simp [vars, parts, children]

/-- The value of a type that is no variable is one node above the values of its components. -/
theorem size_valueAt_of_parts (σ : VarId → Ty) {t : Ty} (h : ∀ v, t ≠ .var v) :
    (t.valueAt σ).size = sizeList (t.parts.map (valueAt σ)) + 1 := by
  cases t with
  | var id => exact absurd rfl (h id)
  | prim name => rfl
  | tuple elems => simp [valueAt_tuple, size, parts, children]
  | array elem n => simp [valueAt_array, size, parts, children, sizeList]
  | ref region isMut inner => simp [valueAt_ref, size, parts, children, sizeList]
  | ptr isMut inner => simp [valueAt_ptr, size, parts, children, sizeList]
  | fn params ret => simp [valueAt_fn, size, parts, sizeList]
  | named name regions args => simp [valueAt_named, size, parts, children]

/-- A type of a list is not larger than the list. -/
theorem size_le_sizeList {t : Ty} {ts : List Ty} (h : t ∈ ts) : t.size ≤ sizeList ts := by
  induction ts with
  | nil => cases h
  | cons u ts ih =>
    simp only [sizeList]
    rcases List.mem_cons.mp h with rfl | h
    · omega
    · have hle := ih h
      omega

/-- A component is smaller than its type. -/
theorem size_lt_of_mem_parts {t p : Ty} (hp : p ∈ t.parts) : p.size < t.size := by
  have hle := size_le_sizeList hp
  rw [size_eq_parts t]
  omega

/-- A component has a smaller value than its type. -/
theorem size_valueAt_lt_of_mem_parts (σ : VarId → Ty) {t p : Ty} (hp : p ∈ t.parts) :
    (p.valueAt σ).size < (t.valueAt σ).size := by
  have hvar : ∀ v, t ≠ .var v := by
    rintro v rfl
    simp [parts, children] at hp
  have hle := size_le_sizeList (List.mem_map_of_mem (f := valueAt σ) hp)
  rw [size_valueAt_of_parts σ hvar]
  omega

/-- The value of a variable is no larger than that of a type it occurs in. -/
theorem size_valueAt_var_le (σ : VarId → Ty) {v : VarId} {t : Ty} (hv : v ∈ t.vars) :
    ((var v).valueAt σ).size ≤ (t.valueAt σ).size := by
  -- components are reached through `parts` and not through constructors, hence the induction on
  -- the size
  induction hn : t.size using Nat.strongRecOn generalizing t with
  | _ n ih =>
    rcases mem_vars_iff_parts.mp hv with rfl | ⟨p, hp, hvp⟩
    · exact Nat.le_refl _
    · have hle := ih p.size (hn ▸ size_lt_of_mem_parts hp) hvp rfl
      have hlt := size_valueAt_lt_of_mem_parts σ hp
      omega

/-- No assignment gives a variable and a type that properly contains it the same value. -/
theorem valueAt_var_ne_of_mem_vars (σ : VarId → Ty) {v : VarId} {t : Ty} (hv : v ∈ t.vars)
    (hne : t ≠ .var v) : (var v).valueAt σ ≠ t.valueAt σ := by
  intro heq
  -- the variable sits in a component, and the component's value is smaller than the whole
  obtain ⟨p, hp, hvp⟩ := (mem_vars_iff_parts.mp hv).resolve_left hne
  have hle := size_valueAt_var_le σ hvp
  have hlt := size_valueAt_lt_of_mem_parts σ hp
  rw [heq] at hle
  omega

end Generics.Ty
