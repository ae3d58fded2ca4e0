import Generics.Ty.Expand
import Generics.Ty.Variables
import Mathlib.Data.List.Basic

/-!
# Variables and names of a type

The variables and the names of a type are its atoms, which `Ty.atoms` lists in source order. The
`Ty.frame` of a type is what is left when all of them are blank. In it a variable and a name without
arguments look the same, so that one may be put in the place of the other.

## Main results

* `Ty.mem_vars_iff` and `Ty.mem_bareNames_iff`: which atoms there are;
* `Ty.recast_rename` and `Ty.recast_refer`: new names for variables, and variables in the place of
  names, change each atom by itself and leave the frame alone.
-/

namespace Generics.Ty

/-- A place in a type that holds a variable or a name. -/
inductive Atom where
  | var (id : VarId)
  /-- A name, and whether it has arguments. -/
  | name (text : String) (applied : Bool)
deriving DecidableEq, Repr

namespace Atom

/-- The place with its variable under another name. -/
def rename (f : VarId → VarId) : Atom → Atom
  | .var id => .var (f id)
  | a => a

/-- The place with a variable for its name, if the name has no arguments and a variable is given. -/
def refer (f : String → Option VarId) : Atom → Atom
  | .name text false => ((f text).map .var).getD (.name text false)
  | a => a

end Atom

/-- A name with these arguments stands alone. -/
def isBare (regions : List Region) (args : List Ty) : Bool := regions.isEmpty && args.isEmpty

mutual

/-- The variables and names of a type, in source order. -/
def atoms : Ty → List Atom
  | .prim _ => []
  | .var id => [.var id]
  | .tuple elems => atomsList elems
  | .array elem _ => elem.atoms
  | .ref _ _ inner => inner.atoms
  | .ptr _ inner => inner.atoms
  | .fn params none => atomsList params
  | .fn params (some ret) => atomsList params ++ ret.atoms
  | .named name regions args => .name name (!isBare regions args) :: atomsList args

/-- The variables and names of the types of a list. -/
def atomsList : List Ty → List Atom
  | [] => []
  | t :: ts => t.atoms ++ atomsList ts

end

mutual

/-- The type with all variables and names blank. An absent return type is read as unit. -/
def frame : Ty → Ty
  | .prim name => .prim name
  | .var _ => .var 0
  | .tuple elems => .tuple (frameList elems)
  | .array elem size => .array elem.frame size
  | .ref region isMut inner => .ref region isMut inner.frame
  | .ptr isMut inner => .ptr isMut inner.frame
  | .fn params none => .fn (frameList params) (some unit)
  | .fn params (some ret) => .fn (frameList params) (some ret.frame)
  | .named _ regions args =>
    if isBare regions args then .var 0 else .named "" regions (frameList args)

/-- The types of a list with all variables and names blank. -/
def frameList : List Ty → List Ty
  | [] => []
  | t :: ts => t.frame :: frameList ts

end

@[simp] theorem atomsList_eq_flatMap (ts : List Ty) : atomsList ts = ts.flatMap atoms := by
  induction ts with
  | nil => rfl
  | cons t ts ih => simp [atomsList, ih]

@[simp] theorem frameList_eq_map (ts : List Ty) : frameList ts = ts.map frame := by
  induction ts with
  | nil => rfl
  | cons t ts ih => simp [frameList, ih]

theorem isBare_iff {regions : List Region} {args : List Ty} :
    isBare regions args = true ↔ regions = [] ∧ args = [] := by
  simp [isBare]

/-- Whether a name stands alone does not depend on what its arguments are. -/
theorem isBare_congr (regions : List Region) {args args' : List Ty} (h : args'.length = args.length) :
    isBare regions args' = isBare regions args := by
  rw [Bool.eq_iff_iff, isBare_iff, isBare_iff, ← List.length_eq_zero_iff (l := args'), h,
    List.length_eq_zero_iff]

theorem atoms_applied {name : String} {regions : List Region} {args : List Ty}
    (h : ¬ (regions = [] ∧ args = [])) :
    (named name regions args).atoms = .name name true :: args.flatMap atoms := by
  have happlied : isBare regions args = false := by simpa [isBare] using h
  simp [atoms, happlied]

/-! ## What the atoms are -/

theorem mem_vars_iff {t : Ty} {v : VarId} : v ∈ t.vars ↔ .var v ∈ t.atoms := by
  have hlist {ts : List Ty} (hts : ∀ t ∈ ts, v ∈ t.vars ↔ .var v ∈ t.atoms) :
      v ∈ ts.flatMap vars ↔ .var v ∈ ts.flatMap atoms := by
    simp only [List.mem_flatMap]
    exact exists_congr fun t => and_congr_right (hts t)
  induction t with
  | prim name => simp [vars, atoms]
  | var id => simp [vars, atoms]
  | tuple elems ih => simpa [vars, atoms] using hlist ih
  | array elem size ih => exact ih
  | ref region isMut inner ih => exact ih
  | ptr isMut inner ih => exact ih
  | fn params ret ih ihret =>
    cases ret with
    | none => simpa [vars, atoms] using hlist ih
    | some ret =>
      rw [vars, atoms, varsList_eq_flatMap, atomsList_eq_flatMap, List.mem_append, List.mem_append]
      exact or_congr (hlist ih) (ihret ret rfl)
  | named name regions args ih => simpa [vars, atoms] using hlist ih

theorem mem_bareNames_iff {t : Ty} {name : String} :
    name ∈ t.bareNames ↔ .name name false ∈ t.atoms := by
  have hlist {ts : List Ty} (hts : ∀ t ∈ ts, name ∈ t.bareNames ↔ .name name false ∈ t.atoms) :
      name ∈ ts.flatMap bareNames ↔ .name name false ∈ ts.flatMap atoms := by
    simp only [List.mem_flatMap]
    exact exists_congr fun t => and_congr_right (hts t)
  induction t with
  | prim name => simp [bareNames, atoms]
  | var id => simp [bareNames, atoms]
  | tuple elems ih => simpa [bareNames, atoms] using hlist ih
  | array elem size ih => exact ih
  | ref region isMut inner ih => exact ih
  | ptr isMut inner ih => exact ih
  | fn params ret ih ihret =>
    cases ret with
    | none => simpa [bareNames, atoms] using hlist ih
    | some ret =>
      rw [bareNames, atoms, bareNamesList_eq_flatMap, atomsList_eq_flatMap, List.mem_append,
        List.mem_append]
      exact or_congr (hlist ih) (ihret ret rfl)
  | named head regions args ih =>
    -- only a name with nothing behind it is bare
    by_cases hbare : regions = [] ∧ args = []
    · obtain ⟨rfl, rfl⟩ := hbare
      simp [bareNames, atoms, isBare]
    · rw [bareNames_applied hbare, atoms_applied hbare, hlist ih]
      simp

/-! ## Changing atoms -/

/-- The second type is the first one with each atom changed by `f`. -/
structure Recast (f : Atom → Atom) (t u : Ty) : Prop where
  frame : u.frame = t.frame
  atoms : u.atoms = t.atoms.map f

theorem Recast.list {f : Atom → Atom} {g : Ty → Ty} {ts : List Ty} (h : ∀ t ∈ ts, Recast f t (g t)) :
    (ts.map g).map Ty.frame = ts.map Ty.frame ∧
      (ts.map g).flatMap Ty.atoms = (ts.flatMap Ty.atoms).map f := by
  rw [List.map_map, List.flatMap_map, List.map_flatMap]
  exact ⟨List.map_congr_left fun t ht => (h t ht).frame,
    List.flatMap_congr fun t ht => (h t ht).atoms⟩

/-- New names for the variables. -/
theorem recast_rename (f : VarId → VarId) (t : Ty) :
    Recast (Atom.rename f) t (t.subst fun v => .var (f v)) := by
  induction t with
  | prim name => exact ⟨rfl, rfl⟩
  | var id => exact ⟨rfl, rfl⟩
  | tuple elems ih =>
    obtain ⟨hframes, hatoms⟩ := Recast.list ih
    constructor <;> simp [subst, Ty.frame, Ty.atoms, hframes, hatoms, -List.map_map]
  | array elem size ih => exact ⟨congrArg (Ty.array · size) ih.frame, ih.atoms⟩
  | ref region isMut inner ih => exact ⟨congrArg (Ty.ref region isMut) ih.frame, ih.atoms⟩
  | ptr isMut inner ih => exact ⟨congrArg (Ty.ptr isMut) ih.frame, ih.atoms⟩
  | fn params ret ih ihret =>
    obtain ⟨hframes, hatoms⟩ := Recast.list ih
    cases ret with
    | none => constructor <;> simp [subst, Ty.frame, Ty.atoms, unit, hframes, hatoms, -List.map_map]
    | some ret =>
      have hret := ihret ret rfl
      constructor <;>
        simp [subst, Ty.frame, Ty.atoms, hret.frame, hret.atoms, hframes, hatoms, -List.map_map]
  | named name regions args ih =>
    obtain ⟨hframes, hatoms⟩ := Recast.list ih
    have hbare : isBare regions (args.map (subst fun v => .var (f v))) = isBare regions args :=
      isBare_congr regions (List.length_map _)
    constructor <;>
      simp [subst, Ty.frame, Ty.atoms, Atom.rename, hbare, hframes, hatoms, -List.map_map]

/-- Variables in the place of names. -/
theorem recast_refer (f : String → Option VarId) (t : Ty) :
    Recast (Atom.refer f) t (t.replaceBareNames fun name => (f name).map .var) := by
  induction t with
  | prim name => exact ⟨rfl, rfl⟩
  | var id => exact ⟨rfl, rfl⟩
  | tuple elems ih =>
    obtain ⟨hframes, hatoms⟩ := Recast.list ih
    constructor <;> simp [replaceBareNames, Ty.frame, Ty.atoms, hframes, hatoms, -List.map_map]
  | array elem size ih => exact ⟨congrArg (Ty.array · size) ih.frame, ih.atoms⟩
  | ref region isMut inner ih => exact ⟨congrArg (Ty.ref region isMut) ih.frame, ih.atoms⟩
  | ptr isMut inner ih => exact ⟨congrArg (Ty.ptr isMut) ih.frame, ih.atoms⟩
  | fn params ret ih ihret =>
    obtain ⟨hframes, hatoms⟩ := Recast.list ih
    cases ret with
    | none =>
      constructor <;> simp [replaceBareNames, Ty.frame, Ty.atoms, unit, hframes, hatoms, -List.map_map]
    | some ret =>
      have hret := ihret ret rfl
      constructor <;>
        simp [replaceBareNames, Ty.frame, Ty.atoms, hret.frame, hret.atoms, hframes, hatoms,
          -List.map_map]
  | named name regions args ih =>
    -- a name that stands alone is an atom of its own, and its frame is that of a variable
    by_cases hbare : regions = [] ∧ args = []
    · obtain ⟨rfl, rfl⟩ := hbare
      cases hf : f name <;>
        constructor <;> simp [replaceBareNames, hf, Ty.frame, Ty.atoms, Atom.refer, isBare]
    · obtain ⟨hframes, hatoms⟩ := Recast.list ih
      have happlied : isBare regions args = false := by simpa [isBare] using hbare
      have hsame : isBare regions (args.map (replaceBareNames fun name => (f name).map .var)) =
          isBare regions args := isBare_congr regions (List.length_map _)
      rw [replaceBareNames_applied hbare]
      constructor <;>
        simp [Ty.frame, Ty.atoms, Atom.refer, hsame, happlied, hframes, hatoms, -List.map_map]

end Generics.Ty
