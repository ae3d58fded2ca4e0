import Generics.Proofs.Capability.Decision
import Generics.Proofs.Evaluation
import Mathlib.Data.Set.Function
import Mathlib.Logic.Relation

/-!
# Registries in use

A registry is declared to, asked and told to forget in any order. Its remembered verdicts stay right
all along, so a check of bounds decides satisfaction however the registry came about.

## Main results

* `Registry.Reachable.soundCache`: whatever a registry was used for, its remembered verdicts are
  right.
* `Registry.Reachable.checkBounds_eq_ok_iff`: a check on a registry decides satisfaction.
-/

namespace Generics

namespace Registry

/-- The registries that a new one can become, each with the questions that came up on the way. -/
inductive Reachable : Registry → Set Question → Prop
  | new : Reachable {} ∅
  | declare {r : Registry} {A : Set Question} (h : Reachable r A) (cap : Capability) :
      Reachable (r.declare cap).1 A
  | implement {r : Registry} {A : Set Question} (h : Reachable r A) (i : Implementation) :
      Reachable (r.implement i).1 A
  | checkBounds {r r' : Registry} {A : Set Question} {depth : Nat} {t : Ty} {bounds : List Bound}
      {outcome : Except Error Unit} (h : Reachable r A)
      (hrun : r.checkBounds depth t bounds = some (r', outcome)) :
      Reachable r' (A ∪ r.catalog.arising {⟨t, bounds⟩})
  | select {r r' : Registry} {A : Set Question} {depth : Nat} {capability : String} {t : Ty}
      {args : List Ty} {outcome : Except Error Selection} (h : Reachable r A)
      (hrun : r.select depth capability t args = some (r', outcome)) :
      Reachable r' (A ∪ r.catalog.arising (r.catalog.conditions capability t args))
  | associatedType {r r' : Registry} {A : Set Question} {depth : Nat} {capability : String} {t : Ty}
      {name : String} {outcome : Except Error Ty} (h : Reachable r A)
      (hrun : r.associatedType depth capability t name = some (r', outcome)) :
      Reachable r' (A ∪ r.catalog.arising (r.catalog.conditions capability t []))
  | forget {r : Registry} {A : Set Question} (h : Reachable r A) : Reachable r.forget A

/-- A check on a registry with right verdicts leaves right verdicts, and its answer is as the check
ensures. -/
theorem run_ensures {α : Type} {r r' : Registry} {D : Set Question} {check : Catalog → CheckM α}
    {post : Except Error α → Prop} {outcome : Except Error α}
    (hrun : r.run check = some (r', outcome))
    (hcache : r.catalog.SoundCache D r.cache)
    (hcheck : CheckM.Ensures (r.catalog.SoundCache D) (check r.catalog) post) :
    r'.catalog.SoundCache D r'.cache ∧ post outcome := by
  unfold run at hrun
  obtain ⟨⟨o, cache⟩, hfirst, hrun⟩ := Option.bind_eq_some_iff.mp hrun
  obtain ⟨rfl, rfl⟩ := Prod.mk.inj (Option.some.inj hrun)
  exact hcheck r.cache _ cache hcache hfirst

/-- A check leaves the catalog alone. -/
theorem catalog_of_run {α : Type} {r r' : Registry} {check : Catalog → CheckM α}
    {outcome : Except Error α} (hrun : r.run check = some (r', outcome)) :
    r'.catalog = r.catalog := by
  unfold run at hrun
  obtain ⟨⟨o, cache⟩, -, hrun⟩ := Option.bind_eq_some_iff.mp hrun
  obtain ⟨rfl, rfl⟩ := Prod.mk.inj (Option.some.inj hrun)
  rfl

/-- The remembered verdicts of a registry are right, whatever it was used for. -/
theorem Reachable.soundCache {r : Registry} {A : Set Question} (h : r.Reachable A)
    (hlegible : Legible A) : r.catalog.SoundCache A r.cache := by
  induction h with
  | new =>
    intro e he
    cases he
  | @declare r A _ cap ih =>
    unfold Registry.declare
    split
    · rename_i catalog hdeclare
      -- older verdicts no longer count once something is declared
      exact (ih hlegible).of_generation_lt (Catalog.generation_lt_of_declare hdeclare)
    · exact ih hlegible
  | @implement r A _ i ih =>
    unfold Registry.implement
    split
    · rename_i catalog himplement
      exact (ih hlegible).of_generation_lt (Catalog.generation_lt_of_implement himplement)
    · exact ih hlegible
  | checkBounds _ hrun ih =>
    exact (run_ensures hrun (.union ih hlegible)
      (Catalog.decides_checkBounds hlegible Set.subset_union_right _)).1
  | select _ hrun ih =>
    exact (run_ensures hrun (.union ih hlegible)
      (Catalog.decides_select hlegible Set.subset_union_right _)).1
  | associatedType _ hrun ih =>
    exact (run_ensures hrun (.union ih hlegible)
      (Catalog.ensures_associatedType hlegible Set.subset_union_right _ _)).1
  | forget =>
    intro e he
    cases he

end Registry

/-! ## Plain catalogs -/

namespace Catalog

/-- No capability of the catalog has parameters or supertraits. -/
def Plain (c : Catalog) : Prop := ∀ cap ∈ c.capabilities, cap.params = [] ∧ cap.supertraits = []

/-- In a plain catalog there are no arguments to fill in. -/
theorem Plain.eq_of_fillArgs {c : Catalog} (h : c.Plain) {name : String} {cap : Capability}
    {args filled : List Ty} (hfind : c.find? name = some cap)
    (hargs : cap.fillArgs args = .ok filled) :
    filled = args := by
  have hparams := (h cap (List.mem_of_find?_eq_some hfind)).1
  simp only [Capability.fillArgs, hparams] at hargs
  split at hargs
  · cases hargs
  · simpa [bind, Except.bind, pure, Except.pure, eq_comm] using hargs

theorem Plain.not_isSupertrait {c : Catalog} (h : c.Plain) {name super : String} :
    ¬ c.IsSupertrait name super := by
  rintro ⟨-, hpath⟩
  obtain ⟨next, ⟨cap, hfind, hnext⟩, -⟩ := Relation.TransGen.head'_iff.mp hpath
  have hsupers := (h cap (List.mem_of_find?_eq_some hfind)).2
  simp [hsupers] at hnext

/-- In a plain catalog only the conditions of the implementation that matches come up. -/
theorem Plain.mem_conditions_of_asks {c : Catalog} (h : c.Plain) {t : Ty} {b : Bound} {q : Question}
    (hasks : c.Asks t b q) :
    q ∈ ((c.select? b.capability t b.args).map Selection.conditions).getD [] := by
  cases hasks with
  | condition hq =>
    obtain ⟨sel, ⟨cap, filled, hfind, hargs, hmatch⟩, hq⟩ := hq
    rw [← h.eq_of_fillArgs hfind hargs, select?_eq_some_iff.mpr hmatch]
    exact hq
  | argument hfind hargs hp =>
    have hparams := (h _ (List.mem_of_find?_eq_some hfind)).1
    simp [hparams] at hp
  | supertrait hsuper => exact absurd hsuper h.not_isSupertrait

/-- In a plain catalog it can be computed that a list holds all questions that come up. -/
theorem Plain.arising_subset {c : Catalog} (h : c.Plain) {q : Question} {asked : List Question}
    (hq : q ∈ asked)
    (hclosed : ∀ q ∈ asked, ∀ b ∈ q.bounds, ⟨q.type, [b]⟩ ∈ asked ∧
      ∀ q' ∈ ((c.select? b.capability q.type b.args).map Selection.conditions).getD [],
        q' ∈ asked) :
    c.arising {q} ⊆ {q | q ∈ asked} := by
  refine Catalog.arising_subset (by rintro _ rfl; exact hq) ?_ ?_
  · exact fun q hq b hb => (hclosed q hq b hb).1
  · exact fun t b hq q' hasks =>
      (hclosed _ hq b List.mem_cons_self).2 q' (h.mem_conditions_of_asks hasks)

/-- Two capabilities, each implemented for a type on the condition that the type has the other
one. -/
def circle : Catalog where
  capabilities := [⟨"A", [], [], [], []⟩, ⟨"B", [], [], [], []⟩]
  implementations := [⟨"A", .prim "i32", [], [⟨.prim "i32", [.simple "B"]⟩], []⟩,
    ⟨"B", .prim "i32", [], [⟨.prim "i32", [.simple "A"]⟩], []⟩]

/-- The type `X` has the capability `Y: Z`, and no type has the capability `Z`. -/
def runTogether : Catalog where
  capabilities := [⟨"Y: Z", [], [], [], []⟩, ⟨"Z", [], [], [], []⟩]
  implementations := [⟨"Y: Z", .named "X" [] [], [], [], []⟩]

end Catalog

namespace Registry

open Catalog (circle runTogether)

/-! ## Deciding satisfaction -/

/-- Whatever a registry was used for, a check of bounds that has an answer succeeds exactly if the
type satisfies all of the bounds. -/
theorem Reachable.checkBounds_eq_ok_iff {r r' : Registry} {A : Set Question} (h : r.Reachable A)
    {depth : Nat} {t : Ty} {bounds : List Bound} {outcome : Except Error Unit}
    (hlegible : Legible (A ∪ r.catalog.arising {⟨t, bounds⟩}))
    (hrun : r.checkBounds depth t bounds = some (r', outcome)) :
    outcome = .ok () ↔ ∀ b ∈ bounds, r.catalog.Satisfies t b := by
  have hverdict := (run_ensures hrun (.union h.soundCache hlegible)
    (Catalog.decides_checkBounds hlegible Set.subset_union_right depth)).2
  rw [show (∀ b ∈ bounds, r.catalog.Satisfies t b) ↔ outcome.isOk = true from hverdict.symm]
  cases outcome with
  | ok => simp [Except.isOk, Except.toBool]
  | error e => simp [Except.isOk, Except.toBool]

/-- The circle can be declared. -/
theorem reachable_circle : Reachable ⟨circle, []⟩ ∅ :=
  (((Reachable.new.declare ⟨"A", [], [], [], []⟩).declare ⟨"B", [], [], [], []⟩).implement
    ⟨"A", .prim "i32", [], [⟨.prim "i32", [.simple "B"]⟩], []⟩).implement
    ⟨"B", .prim "i32", [], [⟨.prim "i32", [.simple "A"]⟩], []⟩

/-- The check of `A` meets `A` again and remembers a failure for `B`. The later check of `B` only
reads this verdict, and the verdict is right: `B` is not satisfied. -/
theorem Reachable.checkBounds_eq_ok_iff_of_circle :
    ∃ (r r' : Registry) (A : Set Question) (e : Error), r.Reachable A ∧
      Legible (A ∪ r.catalog.arising {⟨.prim "i32", [.simple "B"]⟩}) ∧
      r.checkBounds 0 (.prim "i32") [.simple "B"] = some (r', .error e) ∧
      ¬ r.catalog.Satisfies (.prim "i32") (.simple "B") := by
  let asked : List Question := [⟨.prim "i32", [.simple "A"]⟩, ⟨.prim "i32", [.simple "B"]⟩]
  have hrun : ((⟨circle, []⟩ : Registry).checkBounds 3 (.prim "i32") [.simple "A"]).bind (fun p =>
      (p.1.checkBounds 0 (.prim "i32") [.simple "B"]).map fun p => p.2.isOk) = some false := by
    decide +kernel
  -- `r` is the registry after the first check
  obtain ⟨⟨r, first⟩, hfirst, hrun⟩ := Option.bind_eq_some_iff.mp hrun
  obtain ⟨⟨r', outcome⟩, hsecond, hfails⟩ := Option.map_eq_some_iff.mp hrun
  have hreach := reachable_circle.checkBounds hfirst
  have hcatalog : r.catalog = circle := catalog_of_run hfirst
  have hplain : circle.Plain := by simp [Catalog.Plain, circle]
  have harising : ∀ q ∈ asked, circle.arising {q} ⊆ {q | q ∈ asked} :=
    fun q hq => hplain.arising_subset hq (by decide +kernel)
  have hdistinct : ∀ q ∈ asked, ∀ q' ∈ asked, q.key = q'.key → q = q' := by decide +kernel
  have hasked : Legible {q | q ∈ asked} := by
    intro q hq q' hq' hkey
    obtain rfl := hdistinct q hq q' hq' hkey
    exact ⟨rfl, fun _ => Iff.rfl⟩
  have hlegible : Legible ((∅ ∪ circle.arising {⟨.prim "i32", [.simple "A"]⟩}) ∪
      r.catalog.arising {⟨.prim "i32", [.simple "B"]⟩}) := by
    rw [hcatalog, Set.empty_union]
    exact hasked.mono (Set.union_subset (harising _ (by decide)) (harising _ (by decide)))
  have hiff := hreach.checkBounds_eq_ok_iff hlegible hsecond
  cases outcome with
  | ok => cases hfails
  | error e =>
    refine ⟨r, r', _, e, hreach, hlegible, hsecond, fun hsatisfies => ?_⟩
    cases hiff.mpr (by simpa using hsatisfies)

/-! ## Keys that run together -/

/-- Types are told apart by their written forms, and so are bounds. -/
def LegibleParts (D : Set Question) : Prop :=
  Set.InjOn Ty.render (Question.type '' D) ∧ Set.InjOn Bound.render {b | ∃ q ∈ D, b ∈ q.bounds}

/-- Nothing is wrong with the names as far as declaring goes. -/
theorem reachable_runTogether : Reachable ⟨runTogether, []⟩ ∅ :=
  ((Reachable.new.declare ⟨"Y: Z", [], [], [], []⟩).declare ⟨"Z", [], [], [], []⟩).implement
    ⟨"Y: Z", .named "X" [] [], [], [], []⟩

/-- It is not enough that types and bounds are told apart by their written forms. The verdict on `X`
and `Y: Z` is taken for the one on `X: Y` and `Z`. -/
theorem exists_checkBounds_ok_not_satisfies :
    ∃ (r r' : Registry) (A : Set Question), r.Reachable A ∧
      LegibleParts (A ∪ r.catalog.arising {⟨.named "X: Y" [] [], [.simple "Z"]⟩}) ∧
      r.checkBounds 3 (.named "X: Y" [] []) [.simple "Z"] = some (r', .ok ()) ∧
      ¬ r.catalog.Satisfies (.named "X: Y" [] []) (.simple "Z") := by
  let asked : List Question :=
    [⟨.named "X" [] [], [.simple "Y: Z"]⟩, ⟨.named "X: Y" [] [], [.simple "Z"]⟩]
  -- the second check reads the verdict of the first one
  have hrun : ((⟨runTogether, []⟩ : Registry).checkBounds 3 (.named "X" [] [])
      [.simple "Y: Z"]).bind (fun p =>
        (p.1.checkBounds 3 (.named "X: Y" [] []) [.simple "Z"]).map fun p => p.2.isOk)
          = some true := by
    cbv
  obtain ⟨⟨r, first⟩, hfirst, hrun⟩ := Option.bind_eq_some_iff.mp hrun
  obtain ⟨⟨r', outcome⟩, hsecond, hsucceeds⟩ := Option.map_eq_some_iff.mp hrun
  have hcatalog : r.catalog = runTogether := catalog_of_run hfirst
  have hplain : runTogether.Plain := by simp [Catalog.Plain, runTogether]
  have harising : ∀ q ∈ asked, runTogether.arising {q} ⊆ {q | q ∈ asked} :=
    fun q hq => hplain.arising_subset hq (by decide +kernel)
  have hsubset : (∅ ∪ runTogether.arising {⟨.named "X" [] [], [.simple "Y: Z"]⟩}) ∪
      r.catalog.arising {⟨.named "X: Y" [] [], [.simple "Z"]⟩} ⊆ {q | q ∈ asked} := by
    rw [hcatalog, Set.empty_union]
    exact Set.union_subset (harising _ (by decide)) (harising _ (by decide))
  have htypes : ∀ q ∈ asked, ∀ q' ∈ asked, q.type.render = q'.type.render → q.type = q'.type := by
    decide +kernel
  have hbounds : ∀ q ∈ asked, ∀ q' ∈ asked, ∀ b ∈ q.bounds, ∀ b' ∈ q'.bounds,
      b.render = b'.render → b = b' := by
    decide +kernel
  cases outcome with
  | error e => cases hsucceeds
  | ok =>
    refine ⟨r, r', _, reachable_runTogether.checkBounds hfirst, ⟨?_, ?_⟩, hsecond, ?_⟩
    · rintro _ ⟨q, hq, rfl⟩ _ ⟨q', hq', rfl⟩ hrender
      exact htypes q (hsubset hq) q' (hsubset hq') hrender
    · rintro b ⟨q, hq, hb⟩ b' ⟨q', hq', hb'⟩ hrender
      exact hbounds q (hsubset hq) q' (hsubset hq') b hb b' hb' hrender
    · intro hsatisfies
      rw [hcatalog] at hsatisfies
      -- nothing implements `Z`
      have hfind : runTogether.find? "Z" = some ⟨"Z", [], [], [], []⟩ := rfl
      have hselect : runTogether.select? "Z" (.named "X: Y" [] []) [] = none := rfl
      obtain ⟨⟨sel, hsel, -⟩, -⟩ := (Catalog.satisfies_iff rfl hfind rfl).mp hsatisfies
      have hmatch : runTogether.FirstMatch "Z" (.named "X: Y" [] []) [] sel :=
        (Catalog.selects_iff hfind rfl).mp hsel
      rw [Catalog.select?_eq_some_iff.mpr hmatch] at hselect
      cases hselect

end Registry

end Generics
