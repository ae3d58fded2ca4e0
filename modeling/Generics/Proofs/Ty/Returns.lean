import Generics.Ty.Printer
import Generics.Ty.Variables

/-!
# Return types written out

A function type may leave its return type out, which then is unit. Whatever rebuilds a type writes unit
in its place, so a type that is rebuilt with nothing replaced is not always the same. `Ty.withReturns`
says what it is. Neither its print nor the question whether it has variables tells it from the type.

## Main results

* `Ty.subst_var`: what becomes of a type when every variable is replaced by itself;
* `Ty.render_withReturns`: a return type that is written out for one that was left out is not printed.
-/

namespace Generics.Ty

mutual

/-- The type with unit in the place of every absent return type. -/
def withReturns : Ty → Ty
  | .prim name => .prim name
  | .var id => .var id
  | .tuple elems => .tuple (withReturnsList elems)
  | .array elem size => .array elem.withReturns size
  | .ref region isMut inner => .ref region isMut inner.withReturns
  | .ptr isMut inner => .ptr isMut inner.withReturns
  | .fn params none => .fn (withReturnsList params) (some unit)
  | .fn params (some ret) => .fn (withReturnsList params) (some ret.withReturns)
  | .named name regions args => .named name regions (withReturnsList args)

/-- The types of a list with unit in the place of every absent return type. -/
def withReturnsList : List Ty → List Ty
  | [] => []
  | t :: ts => t.withReturns :: withReturnsList ts

end

@[simp] theorem withReturnsList_eq_map (ts : List Ty) : withReturnsList ts = ts.map withReturns := by
  induction ts with
  | nil => rfl
  | cons t ts ih => simp [withReturnsList, ih]

/-- Replacing each variable by itself writes the return types out and does nothing else. -/
theorem subst_var (t : Ty) : t.subst .var = t.withReturns := by
  have hlist {ts : List Ty} (hts : ∀ t ∈ ts, t.subst .var = t.withReturns) :
      ts.map (subst .var) = ts.map withReturns := List.map_congr_left hts
  induction t with
  | prim name => rfl
  | var id => rfl
  | tuple elems ih => simp [subst, withReturns, hlist ih]
  | array elem size ih => simp [subst, withReturns, ih]
  | ref region isMut inner ih => simp [subst, withReturns, ih]
  | ptr isMut inner ih => simp [subst, withReturns, ih]
  | fn params ret ih ihret =>
    cases ret with
    | none => simp [subst, withReturns, hlist ih]
    | some ret => simp [subst, withReturns, hlist ih, ihret ret rfl]
  | named name regions args ih => simp [subst, withReturns, hlist ih]

/-- Writing return types out adds no variable. -/
theorem isGround_withReturns (t : Ty) : t.withReturns.isGround = t.isGround := by
  have hvars : t.withReturns.vars = [] ↔ t.vars = [] := by
    simp only [List.eq_nil_iff_forall_not_mem, ← subst_var, mem_vars_subst]
    simp [vars]
  rw [Bool.eq_iff_iff, isGround_iff, isGround_iff, hvars]

/-- Writing return types out makes no other type unit. -/
theorem isUnit_withReturns (t : Ty) : t.withReturns.isUnit = t.isUnit := by
  cases t with
  | tuple elems => cases elems <;> rfl
  | fn params ret => cases ret <;> rfl
  | _ => rfl

/-- Writing return types out makes no other type a built-in one. -/
theorem eq_prim_of_withReturns_eq {t : Ty} {name : String} (h : t.withReturns = .prim name) :
    t = .prim name := by
  cases t with
  | fn params ret => cases ret <;> cases h
  | prim => exact h
  | _ => cases h

/-- A return type that is written out for one that was left out is not printed. -/
theorem chars_withReturns (t : Ty) : t.withReturns.chars = t.chars := by
  -- elements, parameters and arguments alike
  have hlist {ts : List Ty} (hts : ∀ t ∈ ts, t.withReturns.chars = t.chars) :
      (ts.map withReturns).map chars = ts.map chars := by simpa using hts
  induction t with
  | prim name => rfl
  | var id => rfl
  | tuple elems ih =>
    simp only [withReturns, chars, withReturnsList_eq_map, charsList_eq_map, hlist ih]
  | array elem size ih => simp only [withReturns, chars, ih]
  | ref region isMut inner ih => simp only [withReturns, chars, ih]
  | ptr isMut inner ih => cases isMut <;> simp only [withReturns, chars, ih]
  | fn params ret ih ihret =>
    cases ret with
    | none => simp [withReturns, chars, hlist ih, isUnit, unit]
    | some ret =>
      simp only [withReturns, chars, withReturnsList_eq_map, charsList_eq_map, hlist ih,
        isUnit_withReturns, ihret ret rfl]
  | named name regions args ih =>
    simp only [withReturns, chars, withReturnsList_eq_map, charsList_eq_map, hlist ih]

theorem render_withReturns (t : Ty) : t.withReturns.render = t.render := by
  rw [render, render, chars_withReturns]

end Generics.Ty
