import Generics.Proofs.Ty.Canonical
import Generics.Proofs.Ty.Phrase
import Generics.Ty.Expand

/-!
# Printed types with other phrases for names

The phrase that a type is printed as, with a phrase of one's own in place of each name without arguments.
For a canonical type it follows the grammar if the phrases put in do, and it stands for the type in which
the names are replaced by what the phrases stand for.

## Main results

* `Ty.phraseWith`: the phrase of a printed type, with its bare names replaced;
* `Ty.Canonical.fits_phraseWith`: it follows the grammar;
* `Ty.Canonical.type_phraseWith`: the type that it stands for.
-/

namespace Generics

open Text

/-- The region as a phrase among the arguments of a name. -/
def Region.phrase (r : Region) : Phrase := .regionArg (if r.isElided then "'_" else r.name)

/-- The phrase can stand for a type in a printed type: it follows the grammar, and after `&` it is not
taken for the word `mut`. -/
structure Phrase.Fits (p : Phrase) : Prop where
  isType : p.IsType
  head?_ne : p.tokens.head? ≠ some (.ident "mut")

namespace Ty

mutual

/-- The phrase that the type is printed as, with the phrase that `g` gives for a name without arguments in
its place. -/
def phraseWith (g : String → Option Phrase) : Ty → Phrase
  | .prim name => if name = "!" then .never else .bare name
  | .var id => .var (String.ofList (decimal id.toNat))
  -- without the comma, parentheses around one type would not make a tuple of it
  | .tuple elems => .group (phrasesWith g elems) (elems.length == 1)
  | .array elem size => .array (elem.phraseWith g) (String.ofList (decimal size.toNat))
  | .ref region isMut inner =>
    .ref (if region.isElided then none else some region.name) isMut (inner.phraseWith g)
  | .ptr isMut inner => .ptr isMut (inner.phraseWith g)
  | .fn params none => .fn (phrasesWith g params) false none
  | .fn params (some ret) =>
    .fn (phrasesWith g params) false (if ret.isUnit then none else some (ret.phraseWith g))
  | .named name [] [] => (g name).getD (.bare name)
  | .named name regions args =>
    .applied name (regions.map Region.phrase ++ phrasesWith g args) false

/-- The phrases of the types of a list. -/
def phrasesWith (g : String → Option Phrase) : List Ty → List Phrase
  | [] => []
  | t :: ts => t.phraseWith g :: phrasesWith g ts

end

@[simp] theorem phrasesWith_eq_map (g : String → Option Phrase) (ts : List Ty) :
    phrasesWith g ts = ts.map (phraseWith g) := by
  induction ts with
  | nil => rfl
  | cons t ts ih => simp [phrasesWith, ih]

theorem phraseWith_applied (g : String → Option Phrase) {name : String} {regions : List Region}
    {args : List Ty} (h : ¬(regions = [] ∧ args = [])) :
    (named name regions args).phraseWith g =
      .applied name (regions.map Region.phrase ++ args.map (phraseWith g)) false := by
  rw [← phrasesWith_eq_map]
  cases regions with
  | nil =>
    cases args with
    | nil => exact absurd ⟨rfl, rfl⟩ h
    | cons t ts => rfl
  | cons r rs => rfl

/-- A number as it is printed. -/
theorem numeral_decimal (n : UInt64) :
    Phrase.IsNumeral (String.ofList (decimal n.toNat)) ∧
      Phrase.numeral (String.ofList (decimal n.toNat)) = n := by
  refine Phrase.readUInt64?_eq_some_iff.mp ?_
  rw [String.toList_ofList]
  exact readUInt64?_decimal n

theorem canonical_iff {t : Ty} :
    t.Canonical ↔ t.rootCanonical = true ∧ ∀ u ∈ t.children, u.Canonical := everywhere_iff

section Canonical

variable {g : String → Option Phrase}

theorem isType_of_mem_phrasesWith {ts : List Ty} (h : ∀ t ∈ ts, (t.phraseWith g).Fits) :
    ∀ p ∈ phrasesWith g ts, p.IsType := by
  intro p hp
  rw [phrasesWith_eq_map] at hp
  obtain ⟨t, ht, rfl⟩ := List.mem_map.mp hp
  exact (h t ht).isType

/-- The phrase of a canonical type follows the grammar, if the phrases put in do. -/
theorem Canonical.fits_phraseWith (hg : ∀ name p, g name = some p → p.Fits) {t : Ty}
    (h : t.Canonical) : (t.phraseWith g).Fits := by
  induction t with
  | prim name =>
    have hname := isName_of_root (canonical_iff.mp h).1
    rw [phraseWith]
    by_cases hnever : name = "!"
    · rw [if_pos hnever]
      exact ⟨.never, by simp [Phrase.tokens]⟩
    · rw [if_neg hnever]
      refine ⟨.bare hname.1, ?_⟩
      simpa [Phrase.tokens] using hname.2
  | var id => exact ⟨.var (numeral_decimal id).1, by simp [phraseWith, Phrase.tokens]⟩
  | tuple elems ih =>
    have helems := isType_of_mem_phrasesWith fun t ht => ih t ht ((canonical_iff.mp h).2 t ht)
    refine ⟨.group helems fun hone hnil => ?_, by simp [phraseWith, Phrase.tokens]⟩
    rw [phrasesWith_eq_map, List.map_eq_nil_iff] at hnil
    simp [hnil] at hone
  | array elem size ih =>
    have helem := ih ((canonical_iff.mp h).2 elem (by simp [children]))
    exact ⟨.array helem.isType (numeral_decimal size).1, by simp [phraseWith, Phrase.tokens]⟩
  | ref region isMut inner ih =>
    have hinner := ih ((canonical_iff.mp h).2 inner (by simp [children]))
    exact ⟨.ref (fun _ => hinner.head?_ne) hinner.isType, by simp [phraseWith, Phrase.tokens]⟩
  | ptr isMut inner ih =>
    have hinner := ih ((canonical_iff.mp h).2 inner (by simp [children]))
    exact ⟨.ptr hinner.isType, by simp [phraseWith, Phrase.tokens]⟩
  | fn params ret ih ihret =>
    obtain ⟨hsome, hbelow⟩ := canonical_iff.mp h
    obtain ⟨ret, rfl⟩ := Option.isSome_iff_exists.mp hsome
    have hparams := isType_of_mem_phrasesWith fun t ht => ih t ht (hbelow t (by simp [children, ht]))
    have hret := ihret ret rfl (hbelow ret (by simp [children]))
    refine ⟨.fn hparams (by simp) fun p hp => ?_, ?_⟩
    · obtain ⟨-, hp⟩ := Option.ite_none_left_eq_some.mp hp
      rw [← Option.some.inj hp]
      exact hret.isType
    · rw [phraseWith, Phrase.tokens_fn]
      simp
  | named name regions args ih =>
    obtain ⟨hroot, hbelow⟩ := canonical_iff.mp h
    simp only [rootCanonical, Bool.and_eq_true, decide_eq_true_eq] at hroot
    obtain ⟨⟨⟨⟨-, hfn⟩, hmut⟩, -⟩, -⟩ := hroot
    by_cases hbare : regions = [] ∧ args = []
    · obtain ⟨rfl, rfl⟩ := hbare
      rw [phraseWith]
      cases hname : g name with
      | some p => exact hg name p hname
      | none => exact ⟨.bare hfn, by simpa [Phrase.tokens] using hmut⟩
    · rw [phraseWith_applied g hbare]
      refine ⟨.applied hfn (fun p hp hnone => ?_) (by simp), by simpa [Phrase.tokens] using hmut⟩
      -- only an argument that is no region has to be a type
      rcases List.mem_append.mp hp with hp | hp
      · obtain ⟨r, -, rfl⟩ := List.mem_map.mp hp
        cases hnone
      · obtain ⟨t, ht, rfl⟩ := List.mem_map.mp hp
        exact (ih t ht (hbelow t ht)).isType

/-! ## The type of the phrase -/

theorem grouped_eq_tuple {elems : List Ty} {comma : Bool} (h : elems.length = 1 → comma = true) :
    grouped (elems, comma) = .tuple elems := by
  unfold grouped
  split
  · rename_i elem heq
    obtain ⟨rfl, rfl⟩ := Prod.mk.inj heq
    cases h rfl
  · rename_i heq
    obtain ⟨rfl, -⟩ := Prod.mk.inj heq
    rfl

/-- The region of a reference is read as it is written. -/
theorem regionOf_ref {r : Region} (h : r.isSpellable = true) :
    ((if r.isElided then none else some r.name).map regionOf).getD .elided = r := by
  have harg := regionOf_arg h
  by_cases helided : r.isElided = true
  · rw [if_pos helided]
    exact (Region.isElided_iff.mp helided).symm
  · rw [if_neg helided] at harg ⊢
    exact harg

/-- Regions and types are told apart among the arguments. -/
theorem args_phraseWith {regions : List Region} (hregions : regions.all Region.isSpellable = true)
    {args : List Ty} (hargs : ∀ t ∈ args, (t.phraseWith g).Fits) :
    (regions.map Region.phrase ++ args.map (phraseWith g)).filterMap Phrase.region? = regions ∧
      Phrase.argTypes (regions.map Region.phrase ++ args.map (phraseWith g)) =
        args.map fun t => (t.phraseWith g).type := by
  induction regions with
  | nil =>
    induction args with
    | nil => exact ⟨rfl, rfl⟩
    | cons t args ih =>
      obtain ⟨ht, hargs⟩ := List.forall_mem_cons.mp hargs
      have hnone := ht.isType.region?_eq_none
      obtain ⟨ihregions, ihtypes⟩ := ih hargs
      rw [List.map_nil, List.nil_append] at ihregions ihtypes ⊢
      rw [List.map_cons, List.filterMap_cons_none hnone, Phrase.argTypes, hnone]
      exact ⟨ihregions, congrArg ((t.phraseWith g).type :: ·) ihtypes⟩
  | cons r regions ih =>
    rw [List.all_cons, Bool.and_eq_true] at hregions
    obtain ⟨ihregions, ihtypes⟩ := ih hregions.2
    have hregion : r.phrase.region? = some r := congrArg some (regionOf_arg hregions.1)
    rw [List.map_cons, List.cons_append, List.filterMap_cons_some hregion, Phrase.argTypes, hregion]
    exact ⟨congrArg (r :: ·) ihregions, ihtypes⟩

/-- The phrase stands for the type in which names without arguments are replaced. -/
theorem Canonical.type_phraseWith (hg : ∀ name p, g name = some p → p.Fits) {t : Ty}
    (h : t.Canonical) :
    (t.phraseWith g).type = t.replaceBareNames fun name => (g name).map Phrase.type := by
  induction t with
  | prim name =>
    have hname : Primitive.isName name = true := (canonical_iff.mp h).1
    rw [phraseWith, replaceBareNames]
    by_cases hnever : name = "!"
    · rw [if_pos hnever, hnever]
      rfl
    · rw [if_neg hnever, Phrase.type, if_pos hname]
  | var id => rw [phraseWith, Phrase.type, (numeral_decimal id).2, replaceBareNames]
  | tuple elems ih =>
    have helems := List.map_congr_left fun t ht => ih t ht ((canonical_iff.mp h).2 t ht)
    rw [phraseWith, Phrase.type_group, replaceBareNames, phrasesWith_eq_map,
      replaceBareNamesList_eq_map, grouped_eq_tuple (by simp), List.map_map]
    exact congrArg tuple helems
  | array elem size ih =>
    have helem := ih ((canonical_iff.mp h).2 elem (by simp [children]))
    rw [phraseWith, Phrase.type, helem, (numeral_decimal size).2, replaceBareNames]
  | ref region isMut inner ih =>
    obtain ⟨hregion, hbelow⟩ := canonical_iff.mp h
    rw [phraseWith, Phrase.type, regionOf_ref hregion, ih (hbelow inner (by simp [children])),
      replaceBareNames]
  | ptr isMut inner ih =>
    have hinner := ih ((canonical_iff.mp h).2 inner (by simp [children]))
    rw [phraseWith, Phrase.type, hinner, replaceBareNames]
  | fn params ret ih ihret =>
    obtain ⟨hsome, hbelow⟩ := canonical_iff.mp h
    obtain ⟨ret, rfl⟩ := Option.isSome_iff_exists.mp hsome
    have hparams := List.map_congr_left fun t ht => ih t ht (hbelow t (by simp [children, ht]))
    have hret := ihret ret rfl (hbelow ret (by simp [children]))
    rw [phraseWith, replaceBareNames, replaceBareNamesList_eq_map, ← hparams, ← hret]
    -- the unit type is not printed as a return type, and it is what a missing one is read as
    by_cases hunit : ret.isUnit = true
    · rw [if_pos hunit, Phrase.type, isUnit_iff.mp hunit, phrasesWith_eq_map, Phrase.typeList_eq_map,
        List.map_map]
      rfl
    · rw [if_neg hunit, Phrase.type, phrasesWith_eq_map, Phrase.typeList_eq_map, List.map_map]
      rfl
  | named name regions args ih =>
    obtain ⟨hroot, hbelow⟩ := canonical_iff.mp h
    simp only [rootCanonical, Bool.and_eq_true] at hroot
    by_cases hbare : regions = [] ∧ args = []
    · obtain ⟨rfl, rfl⟩ := hbare
      -- a name that is kept is not read as a built-in type
      have hprim : Primitive.isName name = false := by simpa using hroot.2
      rw [phraseWith, replaceBareNames]
      cases g name with
      | some p => rfl
      | none => simp [Phrase.type, hprim]
    · have hargs := List.map_congr_left fun t ht => ih t ht (hbelow t ht)
      have hfits : ∀ t ∈ args, (t.phraseWith g).Fits := fun t ht => (hbelow t ht).fits_phraseWith hg
      obtain ⟨hregions, htypes⟩ := args_phraseWith hroot.1.2 hfits
      rw [phraseWith_applied g hbare, replaceBareNames_applied hbare, Phrase.type, hregions, htypes,
        hargs]

end Canonical

end Ty

end Generics
