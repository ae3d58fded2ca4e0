import Generics.Lists
import Generics.Proofs.Ty.Canonical
import Generics.Proofs.Ty.RegionSlots
import Generics.Proofs.Ty.Returns

/-!
# The regions of a type and the regions visited

Two functions go over the regions of a type. `Ty.mapRegionsM` rebuilds the type and gives each region to a
function, and `Ty.regions` lists the different regions that are written. Both visit the root of a type
before its components. They differ in what they take for left out: an elided region of a reference is
passed over by the list, and an elided region argument of a name is not.

## Main results

* `Ty.visits_eq`: the regions that are visited are the region positions, whatever is done to them;
* `Ty.mapRegionsM_pure`: without effects, rebuilding is mapping;
* `Ty.regions_eq_visits_iff`: the list holds the regions visited that are not elided, each where it is met
  first, if and only if no region argument is elided.
-/

namespace Generics

namespace Ty

/-! ## Visits -/

section

variable {σ : Type}

/-- Notes each region that `f` is given. -/
def noting (f : Region → StateM σ Region) (r : Region) : StateM (List Region × σ) Region := do
  let (visits, st) ← get
  let (image, st) := (f r).run st
  set (visits ++ [r], st)
  return image

/-- The regions that `f` is given, in order, when a type is rebuilt with it from the state `st` on. -/
def visits (t : Ty) (f : Region → StateM σ Region) (st : σ) : List Region :=
  ((t.mapRegionsM (noting f)).run ([], st)).2.1

theorem run_mapM_noting (f : Region → StateM σ Region) (l visits : List Region) (st : σ) :
    (l.mapM (noting f)).run (visits, st) =
      (((l.mapM f).run st).1, (visits ++ l, ((l.mapM f).run st).2)) := by
  induction l generalizing visits st with
  | nil =>
    rw [List.append_nil]
    rfl
  | cons r l ih =>
    have hfirst : (noting f r).run (visits, st) =
        (((f r).run st).1, (visits ++ [r], ((f r).run st).2)) := rfl
    rw [List.mapM_cons, List.mapM_cons, run_bind_eq hfirst, run_bind_eq (ih _ _), List.append_assoc]
    rfl

/-- The region positions are visited, whatever is done to them. -/
theorem visits_eq (t : Ty) (f : Region → StateM σ Region) (st : σ) :
    t.visits f st = t.regionSlots := by
  obtain ⟨u, hrun, -, -⟩ := run_mapRegionsM (noting f) t _ _ _
    (run_mapM_noting f t.regionSlots [] st)
  rw [visits, hrun, List.nil_append]

end

/-! ## Rebuilding without effects -/

section

variable {m : Type → Type} [Monad m] [LawfulMonad m]

theorem mapRegionsListM_pure {g : Region → Region} {ts : List Ty}
    (h : ∀ t ∈ ts, t.mapRegionsM (fun r => (pure (g r) : m Region)) = pure (t.mapRegions g)) :
    mapRegionsListM (fun r => (pure (g r) : m Region)) ts = pure (ts.map (mapRegions g)) := by
  induction ts with
  | nil => rfl
  | cons t ts ih =>
    obtain ⟨ht, hts⟩ := List.forall_mem_cons.mp h
    simp [mapRegionsListM, ht, ih hts]

/-- A function without effects is mapped over the regions. -/
theorem mapRegionsM_pure (g : Region → Region) (t : Ty) :
    t.mapRegionsM (fun r => (pure (g r) : m Region)) = pure (t.mapRegions g) := by
  induction t with
  | prim name => rfl
  | var id => rfl
  | tuple elems ih => simp [mapRegionsM, mapRegions, mapRegionsListM_pure ih]
  | array elem size ih => simp [mapRegionsM, mapRegions, ih]
  | ref region isMut inner ih => simp [mapRegionsM, mapRegions, ih]
  | ptr isMut inner ih => simp [mapRegionsM, mapRegions, ih]
  | fn params ret ih ihret =>
    cases ret with
    | none => simp [mapRegionsM, mapRegions, mapRegionsListM_pure ih]
    | some ret => simp [mapRegionsM, mapRegions, mapRegionsListM_pure ih, ihret ret rfl]
  | named name regions args ih => simp [mapRegionsM, mapRegions, mapRegionsListM_pure ih]

end

/-- A type rebuilt with its own regions is the same, with its absent return types written out. -/
theorem mapRegions_id (t : Ty) : t.mapRegions id = t.withReturns := by
  have hlist {ts : List Ty} (hts : ∀ t ∈ ts, t.mapRegions id = t.withReturns) :
      ts.map (mapRegions id) = ts.map withReturns := List.map_congr_left hts
  induction t with
  | prim name => rfl
  | var id => rfl
  | tuple elems ih => simp [mapRegions, withReturns, hlist ih]
  | array elem size ih => simp [mapRegions, withReturns, ih]
  | ref region isMut inner ih => simp [mapRegions, withReturns, ih]
  | ptr isMut inner ih => simp [mapRegions, withReturns, ih]
  | fn params ret ih ihret =>
    cases ret with
    | none => simp [mapRegions, withReturns, hlist ih]
    | some ret => simp [mapRegions, withReturns, hlist ih, ihret ret rfl]
  | named name regions args ih => simp [mapRegions, withReturns, hlist ih]

/-! ## Written regions -/

/-- The region positions at the root of a type. -/
def rootSlots : Ty → List Region
  | .ref region _ _ => [region]
  | .named _ regions _ => regions
  | _ => []

/-- The regions written at the root of a type. -/
def rootWritten : Ty → List Region
  | .ref region _ _ => if region.isElided then [] else [region]
  | .named _ regions _ => regions
  | _ => []

/-- The root of a type comes before its components. -/
theorem regionSlots_eq (t : Ty) : t.regionSlots = t.rootSlots ++ t.children.flatMap regionSlots := by
  cases t with
  | fn params ret => cases ret <;> simp [regionSlots, rootSlots, children]
  | _ => simp [regionSlots, rootSlots, children]

/-- The root of a type comes before its components. -/
theorem writtenRegions_eq (t : Ty) :
    t.writtenRegions = t.rootWritten ++ t.children.flatMap writtenRegions := by
  cases t with
  | fn params ret => cases ret <;> simp [writtenRegions, rootWritten, children]
  | _ => simp [writtenRegions, rootWritten, children]

/-- No region argument at the root of the type is elided. -/
def rootArgsWritten : Ty → Bool
  | .named _ regions _ => regions.all fun r => !r.isElided
  | _ => true

/-- No region argument in the type is elided. -/
def ArgsWritten (t : Ty) : Prop := t.everywhere rootArgsWritten = true

instance (t : Ty) : Decidable t.ArgsWritten := inferInstanceAs (Decidable (_ = true))

/-- Apart from elided ones, all regions are written. -/
theorem filter_writtenRegions (t : Ty) :
    t.writtenRegions.filter (fun r => !r.isElided) = t.regionSlots.filter (fun r => !r.isElided) := by
  induction t using children_ind with
  | step t ih =>
    have hroot : t.rootWritten.filter (fun r => !r.isElided) =
        t.rootSlots.filter (fun r => !r.isElided) := by
      cases t with
      | ref region isMut inner => cases h : region.isElided <;> simp [rootWritten, rootSlots, h]
      | _ => rfl
    rw [writtenRegions_eq, regionSlots_eq, List.filter_append, List.filter_append, hroot,
      List.filter_flatMap, List.filter_flatMap, List.flatMap_congr ih]

/-- An elided region is written only as a region argument. -/
theorem elided_notMem_writtenRegions_iff (t : Ty) : .elided ∉ t.writtenRegions ↔ t.ArgsWritten := by
  induction t using children_ind with
  | step t ih =>
    have hroot : .elided ∉ t.rootWritten ↔ t.rootArgsWritten = true := by
      cases t with
      | ref region isMut inner =>
        cases h : region.isElided with
        | true => simp [rootWritten, rootArgsWritten, h]
        | false =>
          have hne : .elided ≠ region := by
            rintro rfl
            cases h
          simp [rootWritten, rootArgsWritten, h, hne]
      | named name regions args =>
        simp only [rootWritten, rootArgsWritten, List.all_eq_true, Bool.not_eq_true',
          Bool.eq_false_iff, Ne, Region.isElided_iff]
        exact ⟨fun h r hr heq => h (heq ▸ hr), fun h hmem => h _ hmem rfl⟩
      | _ => simp [rootWritten, rootArgsWritten]
    rw [writtenRegions_eq, List.mem_append, not_or, hroot, ArgsWritten, everywhere_iff]
    refine and_congr_right fun _ => ?_
    simp only [List.mem_flatMap, not_exists, not_and]
    exact forall₂_congr ih

/-- What is listed, apart from an elided region, is what is visited: each region once, where it is met
first. The elided region is listed as well if some region argument is elided, and only then. A type that
is rebuilt with its own regions is the same, with its absent return types written out. -/
theorem regions_eq_visits_iff {σ : Type} (t : Ty) (f : Region → StateM σ Region) (st : σ) :
    (t.regions = ((t.visits f st).filter fun r => !r.isElided).eraseDups ↔ t.ArgsWritten) ∧
      (t.regions.filter fun r => !r.isElided) =
        ((t.visits f st).filter fun r => !r.isElided).eraseDups ∧
      t.mapRegions id = t.withReturns ∧
      (t.mapRegionsM (pure : Region → StateM σ Region)).run st = (t.withReturns, st) := by
  have hsame : (t.regions.filter fun r => !r.isElided) =
      ((t.visits f st).filter fun r => !r.isElided).eraseDups := by
    rw [regions, filter_eraseDups, filter_writtenRegions, visits_eq]
  have hlisted : .elided ∉ t.regions ↔ t.ArgsWritten := by
    rw [regions, List.mem_eraseDups]
    exact elided_notMem_writtenRegions_iff t
  refine ⟨?_, hsame, mapRegions_id t, ?_⟩
  · rw [← hlisted, ← hsame]
    constructor
    · intro h hmem
      rw [h] at hmem
      cases (List.mem_filter.mp hmem).2
    · intro h
      refine (List.filter_eq_self.mpr fun r hr => ?_).symm
      rw [Bool.not_eq_true', Bool.eq_false_iff]
      exact fun helided => h (Region.isElided_iff.mp helided ▸ hr)
  · have hpure := mapRegionsM_pure (m := StateM σ) id t
    rw [mapRegions_id] at hpure
    exact congrArg (StateT.run · st) hpure

/-- In `&Ref<'_, &'a u8>` two regions are elided. The one of the reference is not listed, and the region
argument is. -/
theorem regions_elided_argument :
    let t : Ty := .ref .elided false (.named "Ref" [.elided] [.ref ⟨"'a"⟩ false (.prim "u8")])
    parse "&Ref<'_, &'a u8>" = .ok t ∧
      t.visits (pure : Region → StateM Unit Region) () = [.elided, .elided, ⟨"'a"⟩] ∧
      t.regions = [.elided, ⟨"'a"⟩] ∧
      t.regions ≠ ((t.visits (pure : Region → StateM Unit Region) ()).filter
        fun r => !r.isElided).eraseDups := by
  intro t
  have hcanonical : t.Canonical := by decide +kernel
  have hvisits : t.visits (pure : Region → StateM Unit Region) () = [.elided, .elided, ⟨"'a"⟩] :=
    visits_eq t _ _
  refine ⟨hcanonical.spellable.parse_render_of_legible hcanonical.legible, hvisits, ?_, ?_⟩
  · decide +kernel
  · rw [hvisits]
    decide +kernel

end Ty

end Generics
