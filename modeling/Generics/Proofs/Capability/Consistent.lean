import Generics.Proofs.Capability.Persistence

/-!
# Consistent answers

Between two declarations a registry is asked about bounds and associated types, and remembers verdicts
on the way. Its answers are *consistent* when whether a check of bounds passes is a function of the type
and the bounds, whatever was asked before. This can only fail where questions are written alike, since
one then gets the verdict that is remembered for the other.

## Main results

* `Registry.Consistent.eq_of_render_eq`: consistent answers do not tell types apart that are printed
  alike;
* `Registry.consistent_of_legible`: answers are consistent if no two questions are written alike.
-/

namespace Generics

namespace Registry

/-- What a registry is asked. -/
inductive Inquiry where
  | bounds (t : Ty) (bounds : List Bound)
  | projection (capability : String) (t : Ty) (name : String)

/-- The registries that `r₀` becomes when it is asked some of the inquiries in any order. -/
inductive Asked (inquiries : Set Inquiry) (r₀ : Registry) : Registry → Prop
  | start : Asked inquiries r₀ r₀
  | bounds {r r' : Registry} {depth : Nat} {t : Ty} {bounds : List Bound}
      {outcome : Except Error Unit} (h : Asked inquiries r₀ r) (hmem : .bounds t bounds ∈ inquiries)
      (hrun : r.checkBounds depth t bounds = some (r', outcome)) : Asked inquiries r₀ r'
  | projection {r r' : Registry} {depth : Nat} {capability : String} {t : Ty} {name : String}
      {outcome : Except Error Ty} (h : Asked inquiries r₀ r)
      (hmem : .projection capability t name ∈ inquiries)
      (hrun : r.associatedType depth capability t name = some (r', outcome)) : Asked inquiries r₀ r'

/-- Whether a check of bounds passes is a function of the type and the bounds, whatever inquiries were
made before. -/
def Consistent (r₀ : Registry) (inquiries : Set Inquiry) (accepts : Ty → List Bound → Bool) : Prop :=
  ∀ ⦃r r' : Registry⦄ ⦃depth : Nat⦄ ⦃t : Ty⦄ ⦃bounds : List Bound⦄ ⦃outcome : Except Error Unit⦄,
    Asked inquiries r₀ r → .bounds t bounds ∈ inquiries →
      r.checkBounds depth t bounds = some (r', outcome) → outcome.isOk = accepts t bounds

/-- A check is answered from memory if one that is written alike was made just before. -/
theorem checkBounds_again {r r' : Registry} {depth : Nat} {t u : Ty} {bounds : List Bound}
    {outcome : Except Error Unit} (hrun : r.checkBounds depth t bounds = some (r', outcome))
    (hkey : Catalog.verdictKey u bounds = Catalog.verdictKey t bounds) (again : Nat) :
    r'.checkBounds again u bounds = some (r', outcome) := by
  have hcatalog : r'.catalog = r.catalog := catalog_of_run hrun
  -- the verdict was there before, or the check put it there
  have hremembered : r'.cache.verdict? r'.catalog.generation (Catalog.verdictKey u bounds) =
      some outcome := by
    rw [hcatalog, hkey]
    unfold checkBounds run Catalog.checkBounds Catalog.checkBoundsWith at hrun
    cases hverdict : r.cache.verdict? r.catalog.generation (Catalog.verdictKey t bounds) with
    | some verdict =>
      rw [CheckM.run_remembering_of_some _ hverdict] at hrun
      obtain ⟨rfl, rfl⟩ := Prod.mk.inj (Option.some.inj hrun)
      exact hverdict
    | none =>
      rw [CheckM.run_remembering_of_none _ hverdict] at hrun
      obtain ⟨⟨o, cache⟩, hwork, hreturn⟩ := Option.bind_eq_some_iff.mp hrun
      obtain ⟨⟨verdict, between⟩, -, hfirst⟩ := Option.bind_eq_some_iff.mp hwork
      obtain ⟨rfl, rfl⟩ := Prod.mk.inj (Option.some.inj hfirst)
      obtain ⟨rfl, rfl⟩ := Prod.mk.inj (Option.some.inj hreturn)
      simp [VerdictCache.verdict?, VerdictCache.remember]
  unfold checkBounds run Catalog.checkBounds Catalog.checkBoundsWith
  rw [CheckM.run_remembering_of_some _ hremembered]
  rfl

/-- Consistent answers are the same for types that are written alike, as soon as one is checked. -/
theorem Consistent.eq_of_render_eq {r₀ r r' : Registry} {inquiries : Set Inquiry}
    {accepts : Ty → List Bound → Bool} (h : r₀.Consistent inquiries accepts)
    (hasked : r₀.Asked inquiries r) {depth : Nat} {t u : Ty} {bounds : List Bound}
    {outcome : Except Error Unit} (ht : .bounds t bounds ∈ inquiries)
    (hu : .bounds u bounds ∈ inquiries) (hrender : u.render = t.render)
    (hrun : r.checkBounds depth t bounds = some (r', outcome)) :
    accepts u bounds = accepts t bounds := by
  have hkey : Catalog.verdictKey u bounds = Catalog.verdictKey t bounds := by
    rw [Catalog.verdictKey, Catalog.verdictKey, hrender]
  calc accepts u bounds = outcome.isOk :=
        (h (hasked.bounds ht hrun) hu (checkBounds_again hrun hkey 0)).symm
    _ = accepts t bounds := h hasked ht hrun

/-- Answers are consistent as long as no two questions that come up are written alike. -/
theorem consistent_of_legible {r₀ : Registry} {inquiries : Set Inquiry}
    {accepts : Ty → List Bound → Bool} {D : Set Question} (hlegible : Legible D)
    (hcache : r₀.catalog.SoundCache D r₀.cache)
    (hbounds : ∀ t bounds, .bounds t bounds ∈ inquiries →
      r₀.catalog.arising {⟨t, bounds⟩} ⊆ D ∧
        (accepts t bounds = true ↔ r₀.catalog.Holds ⟨t, bounds⟩))
    (hprojections : ∀ capability t name, .projection capability t name ∈ inquiries →
      r₀.catalog.arising (r₀.catalog.conditions capability t []) ⊆ D) :
    r₀.Consistent inquiries accepts := by
  -- questions leave the catalog as it is, and remember only what is right
  have hsound {r : Registry} (hasked : r₀.Asked inquiries r) :
      r.catalog = r₀.catalog ∧ r.catalog.SoundCache D r.cache := by
    induction hasked with
    | start => exact ⟨rfl, hcache⟩
    | bounds _ hmem hrun ih =>
      have harising := (hbounds _ _ hmem).1
      rw [← ih.1] at harising
      exact ⟨(catalog_of_run hrun).trans ih.1,
        (run_ensures hrun ih.2 (Catalog.decides_checkBounds hlegible harising _)).1⟩
    | projection _ hmem hrun ih =>
      have harising := hprojections _ _ _ hmem
      rw [← ih.1] at harising
      exact ⟨(catalog_of_run hrun).trans ih.1,
        (run_ensures hrun ih.2 (Catalog.ensures_associatedType hlegible harising _ _)).1⟩
  intro r r' depth t bounds outcome hasked hmem hrun
  obtain ⟨hcatalog, hremembered⟩ := hsound hasked
  obtain ⟨harising, haccepts⟩ := hbounds t bounds hmem
  rw [← hcatalog] at harising haccepts
  have hverdict : outcome.isOk = true ↔ r.catalog.Holds ⟨t, bounds⟩ :=
    (run_ensures hrun hremembered (Catalog.decides_checkBounds hlegible harising depth)).2
  rw [Bool.eq_iff_iff, hverdict, haccepts]

end Registry

end Generics
