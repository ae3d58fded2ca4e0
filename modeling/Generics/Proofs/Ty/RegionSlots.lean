import Generics.Proofs.Except
import Generics.Proofs.Ty.Spelling
import Generics.Ty.Regions

/-!
# Region positions

A type has its regions in positions, which `Ty.regionSlots` lists. The `Ty.skeleton` of a type is what
is left when all of them are blank. Going over the positions with a function that carries a state fills
them one after the other from left to right and leaves the skeleton alone. In print the regions stand in
the same order.

## Main results

* `Ty.run_mapRegionsM`: going over the regions of a type is going over the list of its positions;
* `Ty.regionSlots_mapRegions` and `Ty.skeleton_mapRegions`: the same for a function without a state;
* `Ty.filterMap_region?_tokens`: the order of the positions is the order in print.
-/

namespace Generics

/-- The region that a token names. -/
def Token.region? : Token → Option Region
  | .region name => some ⟨name⟩
  | _ => none

namespace Ty

/-- The type with all region positions blank. An absent return type is read as unit. -/
def skeleton (t : Ty) : Ty := t.mapRegions fun _ => .elided

@[simp] theorem skeleton_tuple (elems : List Ty) :
    (tuple elems).skeleton = .tuple (elems.map skeleton) := by
  rw [skeleton, mapRegions, mapRegionsList_eq_map]
  rfl

@[simp] theorem skeleton_fn (params : List Ty) (ret : Option Ty) :
    (fn params ret).skeleton = .fn (params.map skeleton) (some (retOrUnit ret).skeleton) := by
  cases ret <;> rw [skeleton, mapRegions, mapRegionsList_eq_map] <;> rfl

@[simp] theorem skeleton_named (name : String) (regions : List Region) (args : List Ty) :
    (named name regions args).skeleton =
      .named name (List.replicate regions.length .elided) (args.map skeleton) := by
  rw [skeleton, mapRegions, mapRegionsList_eq_map, List.map_const']
  rfl

/-! ## Going over the positions -/

section

variable {σ : Type} {f : Region → StateM σ Region}

/-- A run over a list is one over its first region and one over the others. -/
theorem exists_run_mapM_cons {r : Region} {l rs : List Region} {st st' : σ}
    (h : ((r :: l).mapM f).run st = (rs, st')) :
    ∃ first others mid, (f r).run st = (first, mid) ∧ (l.mapM f).run mid = (others, st') ∧
      rs = first :: others := by
  rw [List.mapM_cons] at h
  obtain ⟨hvalue, hstate⟩ := Prod.mk.inj h
  exact ⟨_, _, _, rfl, Prod.ext rfl hstate, hvalue.symm⟩

/-- Going over one list after another. -/
theorem exists_run_mapM_append {l l' rs : List Region} {st st' : σ}
    (h : ((l ++ l').mapM f).run st = (rs, st')) :
    ∃ front back mid, (l.mapM f).run st = (front, mid) ∧ (l'.mapM f).run mid = (back, st') ∧
      rs = front ++ back := by
  rw [List.mapM_append] at h
  obtain ⟨hvalue, hstate⟩ := Prod.mk.inj h
  exact ⟨_, _, _, rfl, Prod.ext rfl hstate, hvalue.symm⟩

/-- A run over a list gives a region for each one. -/
theorem length_run_mapM {l rs : List Region} {st st' : σ} (h : (l.mapM f).run st = (rs, st')) :
    rs.length = l.length := by
  induction l generalizing st rs with
  | nil =>
    obtain ⟨rfl, -⟩ := Prod.mk.inj h
    rfl
  | cons r l ih =>
    obtain ⟨first, others, mid, -, hothers, rfl⟩ := exists_run_mapM_cons h
    exact congrArg (· + 1) (ih hothers)

/-- What going over the region positions of a type makes of it: what comes of the positions is put in
their place, and nothing else is changed. -/
def Refills (f : Region → StateM σ Region) (t : Ty) : Prop :=
  ∀ st st' rs, (t.regionSlots.mapM f).run st = (rs, st') →
    ∃ u : Ty, (t.mapRegionsM f).run st = (u, st') ∧ u.regionSlots = rs ∧ u.skeleton = t.skeleton

/-- The types of a list are gone over one after the other. -/
theorem run_mapRegionsListM {ts : List Ty} (hts : ∀ t ∈ ts, Refills f t) {st st' : σ}
    {rs : List Region} (h : ((ts.flatMap regionSlots).mapM f).run st = (rs, st')) :
    ∃ us, (mapRegionsListM f ts).run st = (us, st') ∧ us.flatMap regionSlots = rs ∧
      us.map skeleton = ts.map skeleton := by
  induction ts generalizing st rs with
  | nil =>
    obtain ⟨rfl, rfl⟩ := Prod.mk.inj h
    exact ⟨[], rfl, rfl, rfl⟩
  | cons t ts ih =>
    obtain ⟨ht, hts⟩ := List.forall_mem_cons.mp hts
    obtain ⟨front, back, mid, hfront, hback, rfl⟩ := exists_run_mapM_append h
    obtain ⟨u, hu, rfl, hskeleton⟩ := ht _ _ _ hfront
    obtain ⟨us, hus, rfl, hskeletons⟩ := ih hts hback
    refine ⟨u :: us, ?_, rfl, by rw [List.map_cons, List.map_cons, hskeleton, hskeletons]⟩
    rw [mapRegionsListM, run_bind_eq hu, run_bind_eq hus]
    rfl

/-- Going over the regions of a type is going over its positions from left to right. -/
theorem run_mapRegionsM (f : Region → StateM σ Region) (t : Ty) : Refills f t := by
  intro st st' rs h
  induction t generalizing st st' rs with
  | prim name =>
    obtain ⟨rfl, rfl⟩ := Prod.mk.inj h
    exact ⟨_, rfl, rfl, rfl⟩
  | var id =>
    obtain ⟨rfl, rfl⟩ := Prod.mk.inj h
    exact ⟨_, rfl, rfl, rfl⟩
  | tuple elems ih =>
    rw [regionSlots, regionSlotsList_eq_flatMap] at h
    obtain ⟨us, hus, rfl, hskeletons⟩ := run_mapRegionsListM ih h
    refine ⟨.tuple us, ?_, by simp [regionSlots], by simp [hskeletons]⟩
    rw [mapRegionsM, run_bind_eq hus]
    rfl
  | array elem size ih =>
    obtain ⟨u, hu, rfl, hskeleton⟩ := ih _ _ _ h
    refine ⟨.array u size, ?_, rfl, congrArg (Ty.array · size) hskeleton⟩
    rw [mapRegionsM, run_bind_eq hu]
    rfl
  | ref region isMut inner ih =>
    -- the region of the reference comes first
    obtain ⟨first, others, mid, hfirst, hothers, rfl⟩ := exists_run_mapM_cons h
    obtain ⟨u, hu, rfl, hskeleton⟩ := ih _ _ _ hothers
    refine ⟨.ref first isMut u, ?_, rfl, congrArg (Ty.ref .elided isMut) hskeleton⟩
    rw [mapRegionsM, run_bind_eq hfirst, run_bind_eq hu]
    rfl
  | ptr isMut inner ih =>
    obtain ⟨u, hu, rfl, hskeleton⟩ := ih _ _ _ h
    refine ⟨.ptr isMut u, ?_, rfl, congrArg (Ty.ptr isMut) hskeleton⟩
    rw [mapRegionsM, run_bind_eq hu]
    rfl
  | fn params ret ih ihret =>
    cases ret with
    | none =>
      rw [regionSlots, regionSlotsList_eq_flatMap] at h
      obtain ⟨us, hus, rfl, hskeletons⟩ := run_mapRegionsListM ih h
      refine ⟨.fn us (some unit), ?_, by simp [regionSlots, unit], by simp [hskeletons, retOrUnit]⟩
      rw [mapRegionsM, run_bind_eq hus]
      rfl
    | some ret =>
      rw [regionSlots, regionSlotsList_eq_flatMap] at h
      obtain ⟨front, back, mid, hfront, hback, rfl⟩ := exists_run_mapM_append h
      obtain ⟨us, hus, rfl, hskeletons⟩ := run_mapRegionsListM ih hfront
      obtain ⟨u, hu, rfl, hskeleton⟩ := ihret ret rfl _ _ _ hback
      refine ⟨.fn us (some u), ?_, by simp [regionSlots],
        by simp [hskeletons, hskeleton, retOrUnit]⟩
      rw [mapRegionsM, run_bind_eq hus, run_bind_eq hu]
      rfl
  | named name regions args ih =>
    rw [regionSlots, regionSlotsList_eq_flatMap] at h
    obtain ⟨front, back, mid, hfront, hback, rfl⟩ := exists_run_mapM_append h
    obtain ⟨us, hus, rfl, hskeletons⟩ := run_mapRegionsListM ih hback
    refine ⟨.named name front us, ?_, by simp [regionSlots],
      by simp [hskeletons, length_run_mapM hfront]⟩
    rw [mapRegionsM, run_bind_eq hfront, run_bind_eq hus]
    rfl

end

/-! ## Mapping the positions -/

/-- Regions are replaced slot by slot. -/
theorem regionSlots_mapRegions (f : Region → Region) (t : Ty) :
    (t.mapRegions f).regionSlots = t.regionSlots.map f := by
  have hlist {ts : List Ty} (hts : ∀ t ∈ ts, (t.mapRegions f).regionSlots = t.regionSlots.map f) :
      (ts.map (mapRegions f)).flatMap regionSlots = (ts.flatMap regionSlots).map f := by
    rw [List.flatMap_map, List.map_flatMap]
    exact List.flatMap_congr hts
  induction t with
  | prim name => rfl
  | var id => rfl
  | tuple elems ih => simpa [mapRegions, regionSlots] using hlist ih
  | array elem size ih => exact ih
  | ref region isMut inner ih => simp [mapRegions, regionSlots, ih]
  | ptr isMut inner ih => exact ih
  | fn params ret ih ihret =>
    cases ret with
    | none => simpa [mapRegions, regionSlots, unit] using hlist ih
    | some ret =>
      have hparams := hlist ih
      simp only [mapRegions, regionSlots, regionSlotsList_eq_flatMap, mapRegionsList_eq_map,
        List.map_append, hparams, ihret ret rfl]
  | named name regions args ih =>
    have hargs := hlist ih
    simp only [mapRegions, regionSlots, regionSlotsList_eq_flatMap, mapRegionsList_eq_map,
      List.map_append, hargs]

/-- A type keeps its skeleton when regions are replaced. -/
theorem skeleton_mapRegions (f : Region → Region) (t : Ty) :
    (t.mapRegions f).skeleton = t.skeleton := by
  have hlist {ts : List Ty} (hts : ∀ t ∈ ts, (t.mapRegions f).skeleton = t.skeleton) :
      (ts.map (mapRegions f)).map skeleton = ts.map skeleton := by
    rw [List.map_map]
    exact List.map_congr_left hts
  induction t with
  | prim name => rfl
  | var id => rfl
  | tuple elems ih => rw [mapRegions, mapRegionsList_eq_map, skeleton_tuple, skeleton_tuple, hlist ih]
  | array elem size ih => exact congrArg (Ty.array · size) ih
  | ref region isMut inner ih => exact congrArg (Ty.ref .elided isMut) ih
  | ptr isMut inner ih => exact congrArg (Ty.ptr isMut) ih
  | fn params ret ih ihret =>
    cases ret with
    | none => rw [mapRegions, mapRegionsList_eq_map, skeleton_fn, skeleton_fn, hlist ih]; rfl
    | some ret =>
      rw [mapRegions, mapRegionsList_eq_map, skeleton_fn, skeleton_fn, hlist ih]
      exact congrArg (fun r => Ty.fn _ (some r)) (ihret ret rfl)
  | named name regions args ih =>
    rw [mapRegions, mapRegionsList_eq_map, skeleton_named, skeleton_named, hlist ih, List.length_map]

/-! ## The positions in print -/

/-- The regions of a list are those of its parts. -/
theorem filterMap_region?_commaSep (parts : List (List Token)) :
    (Token.commaSep parts).filterMap Token.region? = parts.flatMap (·.filterMap Token.region?) := by
  induction parts with
  | nil => rfl
  | cons part parts ih =>
    cases parts with
    | nil => simp [Token.commaSep]
    | cons next parts =>
      rw [Token.commaSep, List.filterMap_append, List.filterMap_cons_none rfl, ih]
      rfl

/-- In print the regions of a type stand in the order of their positions, if none is left out. -/
theorem filterMap_region?_tokens {t : Ty} (h : ∀ r ∈ t.regionSlots, r.isElided = false) :
    t.tokens.filterMap Token.region? = t.regionSlots := by
  have hlist {ts : List Ty}
      (hts : ∀ t ∈ ts, (∀ r ∈ t.regionSlots, r.isElided = false) →
        t.tokens.filterMap Token.region? = t.regionSlots)
      (h : ∀ r ∈ ts.flatMap regionSlots, r.isElided = false) :
      (ts.map tokens).flatMap (·.filterMap Token.region?) = ts.flatMap regionSlots := by
    rw [List.flatMap_map]
    refine List.flatMap_congr fun t ht => hts t ht fun r hr => h r ?_
    exact List.mem_flatMap.mpr ⟨t, ht, hr⟩
  induction t with
  | prim name =>
    rw [tokens]
    split <;> rfl
  | var id => rfl
  | tuple elems ih =>
    rw [regionSlots, regionSlotsList_eq_flatMap] at h ⊢
    have hparts := hlist ih h
    rw [tokens, tokensList_eq_map]
    -- a tuple of one element has a comma of its own
    split
    · rename_i part hpart
      rw [hpart, List.flatMap_singleton] at hparts
      rw [List.filterMap_append, List.filterMap_cons_none rfl, hparts]
      exact List.append_nil _
    · rw [List.filterMap_append, List.filterMap_cons_none rfl, filterMap_region?_commaSep, hparts]
      exact List.append_nil _
  | array elem size ih =>
    rw [tokens, List.filterMap_append, List.filterMap_cons_none rfl, ih h]
    exact List.append_nil _
  | ref region isMut inner ih =>
    rw [regionSlots] at h ⊢
    obtain ⟨hregion, hinner⟩ := List.forall_mem_cons.mp h
    rw [tokens, hregion]
    cases isMut <;> exact congrArg (region :: ·) (ih hinner)
  | ptr isMut inner ih =>
    rw [tokens, List.filterMap_cons_none rfl, List.filterMap_cons_none rfl]
    exact ih h
  | fn params ret ih ihret =>
    cases ret with
    | none =>
      rw [regionSlots, regionSlotsList_eq_flatMap] at h ⊢
      rw [tokens, tokensList_eq_map, List.filterMap_append, List.filterMap_cons_none rfl,
        List.filterMap_cons_none rfl, filterMap_region?_commaSep, hlist ih h]
      exact List.append_nil _
    | some ret =>
      rw [regionSlots, regionSlotsList_eq_flatMap] at h ⊢
      obtain ⟨hparams, hret⟩ := List.forall_mem_append.mp h
      have harrow : (if ret.isUnit then [] else Token.arrow :: ret.tokens).filterMap Token.region? =
          ret.regionSlots := by
        by_cases hunit : ret.isUnit = true
        · rw [isUnit_iff.mp hunit]
          rfl
        · rw [if_neg hunit]
          exact ihret ret rfl hret
      rw [tokens, tokensList_eq_map, List.filterMap_append, List.filterMap_cons_none rfl,
        List.filterMap_cons_none rfl, filterMap_region?_commaSep, hlist ih hparams,
        List.filterMap_cons_none rfl, harrow]
  | named name regions args ih =>
    rw [regionSlots, regionSlotsList_eq_flatMap] at h ⊢
    obtain ⟨hregions, hargs⟩ := List.forall_mem_append.mp h
    have hparts : (regions.map (fun r => [r.argToken]) ++ args.map tokens).flatMap
        (·.filterMap Token.region?) = regions ++ args.flatMap regionSlots := by
      rw [List.flatMap_append, hlist ih hargs, List.flatMap_map]
      have hregion : ∀ r ∈ regions, [r.argToken].filterMap Token.region? = [r] := by
        intro r hr
        rw [Region.argToken, hregions r hr]
        rfl
      rw [List.flatMap_congr hregion, List.flatMap_singleton']
    rw [tokens, tokensList_eq_map]
    -- a name without arguments stands alone
    split
    · rename_i hnone
      rw [← hparts, hnone]
      rfl
    · rw [List.filterMap_append, List.filterMap_cons_none rfl, List.filterMap_cons_none rfl,
        filterMap_region?_commaSep, hparts]
      exact List.append_nil _

end Ty

end Generics
