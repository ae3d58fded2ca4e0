import Generics.Proofs.Capability.Congruence
import Mathlib.Data.Set.Finite.Lattice
import Mathlib.Order.Filter.AtTopBot.Basic
import Mathlib.Order.Filter.Finite

/-!
# How deep a check goes

A check is given the depth to which it may recurse. This module shows that some depth is enough
whenever one cannot pass from the bound to premises for ever. A bound has finitely many premises, so
the depth that is enough for all of them, and one level more, is enough for the bound. What is
remembered can only make a check shorter.

## Main results

* `CheckM.Answers`: the check has an answer, whatever is remembered;
* `CheckM.congruence_answers`: checks have answers if those have that they are put together from;
* `Catalog.finite_isPremise`: a bound has finitely many premises;
* `Catalog.exists_depth_of_acc`: without an endless chain of premises some depth is enough;
* `Catalog.exists_depth_of_holds`: in particular for bounds that are satisfied.
-/

namespace Generics

/-! ## Checks that have an answer -/

namespace CheckM

/-- The check has an answer, whatever verdicts are remembered. -/
def Answers {α : Type} (m : CheckM α) : Prop := ∀ cache, ∃ p, m.run.run cache = some p

/-- A check has an answer if the checks have that it is put together from. What is remembered can
only make it shorter. -/
theorem congruence_answers : Congruence fun m _ => Answers m where
  of_pure a := fun cache => ⟨(.ok a, cache), rfl⟩
  of_throw e := fun cache => ⟨(.error e, cache), rfl⟩
  bind := by
    intro α β m _ f _ hm hf cache
    obtain ⟨⟨first, between⟩, hfirst⟩ := hm cache
    rw [run_bind, hfirst]
    cases first with
    | ok a => exact hf a between
    | error e => exact ⟨_, rfl⟩
  explaining := by
    intro α m _ hm explain cache
    obtain ⟨p, hp⟩ := hm cache
    rw [run_explaining, hp]
    exact ⟨_, rfl⟩
  remembering := by
    intro m _ hm generation key cache
    cases hverdict : cache.verdict? generation key with
    | some verdict => exact ⟨_, run_remembering_of_some m hverdict⟩
    | none =>
      obtain ⟨p, hp⟩ := hm cache
      rw [run_remembering_of_none m hverdict, hp]
      exact ⟨_, rfl⟩

end CheckM

namespace Catalog

/-! ## Finitely many premises -/

/-- The implementation that matches has finitely many conditions. -/
theorem finite_conditions (c : Catalog) (capability : String) (t : Ty) (args : List Ty) :
    (c.conditions capability t args).Finite := by
  by_cases hselects : ∃ sel, c.Selects capability t args sel
  · obtain ⟨sel, hsel⟩ := hselects
    refine (List.finite_toSet sel.conditions).subset ?_
    rintro q ⟨sel', hsel', hq⟩
    rwa [hsel'.unique hsel] at hq
  · refine Set.finite_empty.subset ?_
    rintro q ⟨sel, hsel, -⟩
    exact hselects ⟨sel, hsel⟩

/-- Supertraits are named by declared capabilities, so there are finitely many. -/
theorem finite_isSupertrait (c : Catalog) (name : String) :
    {super | c.IsSupertrait name super}.Finite := by
  refine (List.finite_toSet (c.capabilities.flatMap Capability.supertraits)).subset ?_
  rintro super ⟨-, hpath⟩
  obtain ⟨_, -, cap, hfind, hmem⟩ := Relation.TransGen.tail'_iff.mp hpath
  exact List.mem_flatMap.mpr ⟨cap, List.mem_of_find?_eq_some hfind, hmem⟩

/-- The parameters of a capability have finitely many bounds. -/
theorem finite_arguments (c : Catalog) (b : Bound) :
    {q : Question | ∃ cap args, c.find? b.capability = some cap ∧ cap.fillArgs b.args = .ok args ∧
      ∃ p ∈ cap.params.zip args, ∃ b' ∈ p.1.bounds, q = ⟨p.2, [b']⟩}.Finite := by
  by_cases hcap : ∃ cap args, c.find? b.capability = some cap ∧ cap.fillArgs b.args = .ok args
  · obtain ⟨cap, args, hfind, hargs⟩ := hcap
    let asked : List Question := (cap.params.zip args).flatMap fun p =>
      p.1.bounds.map fun b' => ⟨p.2, [b']⟩
    refine (List.finite_toSet asked).subset ?_
    rintro q ⟨cap', args', hfind', hargs', p, hp, b', hb', rfl⟩
    obtain rfl := Option.some.inj (hfind.symm.trans hfind')
    obtain rfl := Except.ok.inj (hargs.symm.trans hargs')
    exact List.mem_flatMap.mpr ⟨p, hp, List.mem_map_of_mem hb'⟩
  · refine Set.finite_empty.subset ?_
    rintro q ⟨cap, args, hfind, hargs, -⟩
    exact hcap ⟨cap, args, hfind, hargs⟩

/-- Deciding a bound asks finitely many questions. -/
theorem finite_asks (c : Catalog) (t : Ty) (b : Bound) : {q | c.Asks t b q}.Finite := by
  have hconditions := c.finite_conditions b.capability t b.args
  have hsupers : (⋃ super ∈ {super | c.IsSupertrait b.capability super},
      c.conditions super t []).Finite :=
    (c.finite_isSupertrait b.capability).biUnion fun super _ => c.finite_conditions super t []
  refine ((hconditions.union (c.finite_arguments b)).union hsupers).subset ?_
  intro q hq
  cases hq with
  | condition hq => exact .inl (.inl hq)
  | argument hfind hargs hp hb _ => exact .inl (.inr ⟨_, _, hfind, hargs, _, hp, _, hb, rfl⟩)
  | supertrait hsuper hq => exact .inr (Set.mem_biUnion hsuper hq)

/-- A bound has finitely many premises. -/
theorem finite_isPremise (c : Catalog) (t : Ty) (b : Bound) :
    {p | c.IsPremise p (t, b)}.Finite := by
  have hbounds : (⋃ q ∈ {q | c.Asks t b q}, Prod.mk q.type '' {b' | b' ∈ q.bounds}).Finite :=
    (c.finite_asks t b).biUnion fun q _ => (List.finite_toSet q.bounds).image _
  refine hbounds.subset ?_
  rintro ⟨t', b'⟩ ⟨-, q, hasks, rfl, hb'⟩
  exact Set.mem_biUnion hasks ⟨b', hb', rfl⟩

/-! ## Enough depth -/

/-- If one cannot pass from the bound to premises for ever, some depth is enough to check it. -/
theorem exists_depth_of_acc {c : Catalog} {p : Ty × Bound} (h : Acc c.IsPremise p) :
    ∃ enough, ∀ depth ≥ enough, ∀ opened, CheckM.Answers (c.checkBound depth opened p.1 p.2) := by
  induction h with
  | intro p _ ih =>
    -- a depth that is enough for each of finitely many premises
    have hpremises : ∀ᶠ depth in Filter.atTop, ∀ p' ∈ {p' | c.IsPremise p' p}, ∀ opened,
        CheckM.Answers (c.checkBound depth opened p'.1 p'.2) := by
      refine (Filter.eventually_all_finite (c.finite_isPremise p.1 p.2)).mpr fun p' hp' => ?_
      exact Filter.eventually_atTop.mpr (ih p' hp')
    obtain ⟨enough, henough⟩ := Filter.eventually_atTop.mp hpremises
    -- one level for the bound, and one because bounds on regions take a level but are no premises
    refine ⟨enough + 2, fun depth hdepth opened => ?_⟩
    obtain ⟨depth, rfl⟩ : ∃ d, depth = d + 1 + 1 := ⟨depth - 2, by omega⟩
    refine CheckM.congruence_answers.checkBound_succ rfl rfl (depth + 1) (depth + 1)
      (fun _ _ _ => rfl) ?_
    intro opened t' b' hpremise
    cases hkind : b'.kind.isRegional with
    | true =>
      exact CheckM.congruence_answers.checkBound_of_isRegional c c hkind depth depth opened t'
    | false => exact henough (depth + 1) (by omega) (t', b') (hpremise hkind) opened

/-- Some depth is enough to check bounds that are satisfied. -/
theorem exists_depth_of_holds {c : Catalog} {q : Question} (h : c.Holds q) :
    ∃ enough, ∀ depth ≥ enough, CheckM.Answers (c.checkBounds depth q.type q.bounds) := by
  have hbounds : ∀ᶠ depth in Filter.atTop, ∀ b ∈ {b | b ∈ q.bounds},
      CheckM.Answers (c.checkBound depth [] q.type b) := by
    refine (Filter.eventually_all_finite (List.finite_toSet q.bounds)).mpr fun b hb => ?_
    obtain ⟨enough, henough⟩ := exists_depth_of_acc (h b hb).acc
    exact Filter.eventually_atTop.mpr ⟨enough, fun depth hdepth => henough depth hdepth []⟩
  obtain ⟨enough, henough⟩ := Filter.eventually_atTop.mp hbounds
  refine ⟨enough, fun depth hdepth => ?_⟩
  exact CheckM.congruence_answers.checkBounds rfl depth depth (henough depth hdepth)

end Catalog

end Generics
