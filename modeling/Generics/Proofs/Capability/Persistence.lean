import Generics.Proofs.Capability.Coherence
import Generics.Proofs.Capability.Depth

/-!
# Satisfied bounds stay satisfied

Declarations are added after those that are there already. The first implementation that matches
stays the first one, a capability is still found under its name, and a walk over supertraits that
succeeded visits the same ones. A derivation of satisfaction therefore goes over to every later
catalog, and a check that succeeded once succeeds for ever, whatever the registry is used for in the
meantime.

## Main results

* `Catalog.Extends`: the second catalog has all declarations of the first, in front;
* `Catalog.Satisfies.extend`: what is satisfied stays satisfied;
* `Registry.Later`: the registries that a registry can become;
* `Registry.Reachable.checkBounds_of_holds`: a check of bounds that hold succeeds;
* `Registry.Reachable.checkBounds_persists`: a check that succeeded does so in every later registry;
* `Registry.exists_checkBounds_ok_later_error`: it may fail if keys run together.
-/

namespace Generics

namespace Catalog

/-! ## Catalogs that grow -/

/-- The declarations of the first catalog stand in front of those of the second. -/
structure Extends (c c' : Catalog) : Prop where
  capabilities : c.capabilities <+: c'.capabilities
  implementations : c.implementations <+: c'.implementations

theorem Extends.refl (c : Catalog) : c.Extends c := ⟨List.prefix_rfl, List.prefix_rfl⟩

theorem Extends.trans {c c' c'' : Catalog} (h : c.Extends c') (h' : c'.Extends c'') :
    c.Extends c'' :=
  ⟨h.capabilities.trans h'.capabilities, h.implementations.trans h'.implementations⟩

/-- A declaration adds to the catalog. -/
theorem extends_of_declare {c c' : Catalog} {cap : Capability} (h : c.declare cap = .ok c') :
    c.Extends c' := by
  obtain ⟨-, rfl⟩ := exists_of_declare_eq_ok h
  exact ⟨List.prefix_append _ _, List.prefix_rfl⟩

/-- An implementation adds to the catalog. -/
theorem extends_of_implement {c c' : Catalog} {i : Implementation} (h : c.implement i = .ok c') :
    c.Extends c' := by
  obtain ⟨j, -, -, rfl⟩ := implement_eq_ok_iff.mp h
  exact ⟨List.prefix_rfl, List.prefix_append _ _⟩

section Extension

variable {c c' : Catalog} (hc : c.Extends c')
include hc

/-- A declared capability stays as it is declared. -/
theorem Extends.find? {name : String} {cap : Capability} (h : c.find? name = some cap) :
    c'.find? name = some cap := by
  obtain ⟨more, hmore⟩ := hc.capabilities
  rw [Catalog.find?] at h ⊢
  rw [← hmore, List.find?_append, h, Option.some_or]

/-- The first implementation that matches stays the first one. -/
theorem Extends.firstMatch {capability : String} {t : Ty} {args : List Ty} {sel : Selection}
    (h : c.FirstMatch capability t args sel) : c'.FirstMatch capability t args sel := by
  obtain ⟨more, hmore⟩ := hc.implementations
  obtain ⟨before, after, hsplit, hsel, hbefore⟩ := h
  refine ⟨before, after ++ more.filter fun i => i.capability = capability, ?_, hsel, hbefore⟩
  rw [implementationsOf] at hsplit ⊢
  rw [← hmore, List.filter_append, hsplit, List.append_assoc, List.cons_append]

/-- An implementation that is selected stays selected. -/
theorem Extends.selects {capability : String} {t : Ty} {args : List Ty} {sel : Selection}
    (h : c.Selects capability t args sel) : c'.Selects capability t args sel := by
  obtain ⟨cap, filled, hfind, hargs, hmatch⟩ := h
  exact ⟨cap, filled, hc.find? hfind, hargs, hc.firstMatch hmatch⟩

omit hc in
/-- What is found and dropped in front is found and dropped with more capabilities behind. -/
theorem find?_and_eraseP_append {remaining : List Capability} {name : String} {cap : Capability}
    (h : remaining.find? (fun cap => cap.name = name) = some cap) (more : List Capability) :
    (remaining ++ more).find? (fun cap => cap.name = name) = some cap ∧
      (remaining ++ more).eraseP (fun cap => cap.name = name) =
        remaining.eraseP (fun cap => cap.name = name) ++ more := by
  constructor
  · rw [List.find?_append, h, Option.some_or]
  · exact List.eraseP_append_left (List.find?_some h) _ (List.mem_of_find?_eq_some h)

omit hc in
/-- A walk that succeeds never looks at capabilities that are declared later. -/
theorem followSupertraits_append {root : String} {visited : List String}
    {remaining : List Capability} {pending : List (String × Nat)} {names : List String}
    (h : followSupertraits root visited remaining pending = .ok names) (more : List Capability) :
    followSupertraits root visited (remaining ++ more) pending = .ok names := by
  fun_induction followSupertraits root visited remaining pending generalizing names with
  | case1 visited remaining =>
    rw [followSupertraits]
    exact h
  | case2 visited remaining name depth pending hmem ih =>
    rw [followSupertraits, if_pos hmem]
    exact ih h
  | case3 => cases h
  | case4 => cases h
  | case5 visited remaining name depth pending hmem hdepth cap hfind _ ih =>
    obtain ⟨rest, hrest, rfl⟩ := exists_ok_of_map_eq_ok h
    -- the capability visited is found, and dropped, before those that were added
    obtain ⟨hfind', herase⟩ := find?_and_eraseP_append hfind more
    rw [followSupertraits, if_neg hmem, if_neg hdepth]
    split
    · rename_i hnone
      rw [hfind'] at hnone
      cases hnone
    · rename_i cap' hcap'
      obtain rfl := Option.some.inj (hfind'.symm.trans hcap')
      simp only [herase, ih hrest]
      rfl

/-- The supertraits of a capability stay the same once the walk over them succeeds. -/
theorem Extends.supertraits {name : String} {names : List String}
    (h : c.supertraits name = .ok names) : c'.supertraits name = .ok names := by
  obtain ⟨more, hmore⟩ := hc.capabilities
  obtain ⟨cap, hfind, h⟩ := exists_ok_of_bind_eq_ok h
  rw [find_eq_ok_iff] at hfind
  have herase := (find?_and_eraseP_append hfind more).2
  rw [Catalog.supertraits, find_eq_ok_iff.mpr (hc.find? hfind), ← hmore, herase]
  exact followSupertraits_append h more

/-- The supertraits of a capability stay the same once the walk over them succeeds. -/
theorem Extends.isSupertrait_iff {name super : String} {names : List String}
    (h : c.supertraits name = .ok names) :
    c'.IsSupertrait name super ↔ c.IsSupertrait name super := by
  rw [← mem_supertraits_iff h, ← mem_supertraits_iff (hc.supertraits h)]

/-- What is satisfied stays satisfied when more is declared. -/
theorem Satisfies.extend {t : Ty} {b : Bound} (h : c.Satisfies t b) : c'.Satisfies t b := by
  induction h with
  | regional hkind => exact .regional hkind
  | capability hfind hargs hmatch _ _ hwalk hsupers _ ihconditions ihparams ihsupers =>
    obtain ⟨names, hnames⟩ := hwalk
    refine .capability (hc.find? hfind) hargs (hc.firstMatch hmatch) ihconditions ihparams
      ⟨names, hc.supertraits hnames⟩ ?_ ?_
    · intro super hsuper
      obtain ⟨sel, hsel⟩ := hsupers super ((hc.isSupertrait_iff hnames).mp hsuper)
      exact ⟨sel, hc.selects hsel⟩
    · intro super sel' hsuper hsel'
      have hsuper := (hc.isSupertrait_iff hnames).mp hsuper
      -- the implementation selected later is the one that was selected before
      obtain ⟨sel, hsel⟩ := hsupers super hsuper
      obtain rfl := (hc.selects hsel).unique hsel'
      exact ihsupers super sel hsuper hsel

/-- A question that is answered with yes stays so. -/
theorem Holds.extend {q : Question} (h : c.Holds q) : c'.Holds q :=
  fun b hb => (h b hb).extend hc

end Extension

end Catalog

/-- Bytes can be shown, and lists of what can be shown. -/
def Catalog.lists : Catalog where
  capabilities := [⟨"Show", [], [], [], []⟩]
  implementations := [⟨"Show", .prim "u8", [], [], []⟩,
    ⟨"Show", .named "Vec" [] [.var 0], [], [⟨.var 0, [.simple "Show"]⟩], []⟩]

/-- There is one more capability, and integers can be shown too. -/
def Catalog.moreLists : Catalog where
  capabilities := Catalog.lists.capabilities ++ [⟨"Copy", [], [], [], []⟩]
  implementations := Catalog.lists.implementations ++ [⟨"Show", .prim "i32", [], [], []⟩]

namespace Registry

open Catalog (lists moreLists runTogether)

/-! ## Registries in use -/

/-- One use of a registry, with the questions that come up in it. -/
inductive Step : Registry → Set Question → Registry → Prop
  | declare (r : Registry) (cap : Capability) : Step r ∅ (r.declare cap).1
  | implement (r : Registry) (i : Implementation) : Step r ∅ (r.implement i).1
  | checkBounds {r r' : Registry} {depth : Nat} {t : Ty} {bounds : List Bound}
      {outcome : Except Error Unit} (hrun : r.checkBounds depth t bounds = some (r', outcome)) :
      Step r (r.catalog.arising {⟨t, bounds⟩}) r'
  | select {r r' : Registry} {depth : Nat} {capability : String} {t : Ty} {args : List Ty}
      {outcome : Except Error Selection}
      (hrun : r.select depth capability t args = some (r', outcome)) :
      Step r (r.catalog.arising (r.catalog.conditions capability t args)) r'
  | associatedType {r r' : Registry} {depth : Nat} {capability : String} {t : Ty} {name : String}
      {outcome : Except Error Ty}
      (hrun : r.associatedType depth capability t name = some (r', outcome)) :
      Step r (r.catalog.arising (r.catalog.conditions capability t [])) r'
  | forget (r : Registry) : Step r ∅ r.forget

/-- What becomes of a registry in any number of uses, with the questions that come up in them. -/
inductive Later : Registry → Set Question → Registry → Prop
  | refl (r : Registry) : Later r ∅ r
  | tail {r r' r'' : Registry} {B C : Set Question} (h : Later r B r') (hstep : Step r' C r'') :
      Later r (B ∪ C) r''

/-- A use of a reachable registry leaves a reachable one. -/
theorem Reachable.step {r r' : Registry} {A C : Set Question} (h : r.Reachable A)
    (hstep : r.Step C r') : r'.Reachable (A ∪ C) := by
  cases hstep with
  | declare cap =>
    rw [Set.union_empty]
    exact h.declare cap
  | implement i =>
    rw [Set.union_empty]
    exact h.implement i
  | checkBounds hrun => exact h.checkBounds hrun
  | select hrun => exact h.select hrun
  | associatedType hrun => exact h.associatedType hrun
  | forget =>
    rw [Set.union_empty]
    exact h.forget

/-- A registry stays reachable in any number of uses, with their questions added. -/
theorem Reachable.later {r r' : Registry} {A B : Set Question} (h : r.Reachable A)
    (hlater : r.Later B r') : r'.Reachable (A ∪ B) := by
  induction hlater with
  | refl =>
    rw [Set.union_empty]
    exact h
  | tail _ hstep ih =>
    rw [← Set.union_assoc]
    exact ih.step hstep

/-- No use of a registry takes anything out of its catalog. -/
theorem Step.extends {r r' : Registry} {C : Set Question} (h : r.Step C r') :
    r.catalog.Extends r'.catalog := by
  cases h with
  | declare cap =>
    unfold Registry.declare
    split
    · rename_i hdeclare
      exact Catalog.extends_of_declare hdeclare
    · exact .refl _
  | implement i =>
    unfold Registry.implement
    split
    · rename_i himplement
      exact Catalog.extends_of_implement himplement
    · exact .refl _
  | checkBounds hrun =>
    rw [catalog_of_run hrun]
    exact .refl _
  | select hrun =>
    rw [catalog_of_run hrun]
    exact .refl _
  | associatedType hrun =>
    rw [catalog_of_run hrun]
    exact .refl _
  | forget => exact .refl _

/-- The catalog of a registry only grows. -/
theorem Later.extends {r r' : Registry} {B : Set Question} (h : r.Later B r') :
    r.catalog.Extends r'.catalog := by
  induction h with
  | refl => exact .refl _
  | tail _ hstep ih => exact ih.trans hstep.extends

/-- Questions that are listed are legible if all their keys are different. -/
theorem legible_of_key_injective {asked : List Question}
    (h : ∀ q ∈ asked, ∀ q' ∈ asked, q.key = q'.key → q = q') : Legible {q | q ∈ asked} := by
  intro q hq q' hq' hkey
  obtain rfl := h q hq q' hq' hkey
  exact ⟨rfl, fun _ => Iff.rfl⟩

/-! ## Persistence -/

/-- Whatever a registry was used for, an answer to a check of bounds is a success exactly if the
bounds hold. -/
theorem Reachable.isOk_checkBounds_iff {r r' : Registry} {A : Set Question} (h : r.Reachable A)
    {depth : Nat} {t : Ty} {bounds : List Bound} {outcome : Except Error Unit}
    (hlegible : Legible (A ∪ r.catalog.arising {⟨t, bounds⟩}))
    (hrun : r.checkBounds depth t bounds = some (r', outcome)) :
    outcome.isOk = true ↔ r.catalog.Holds ⟨t, bounds⟩ :=
  (run_ensures hrun (.union h.soundCache hlegible)
    (Catalog.decides_checkBounds hlegible Set.subset_union_right depth)).2

/-- Whatever a registry was used for, a check of bounds that hold succeeds: some depth is enough for
it, and any answer is a success. -/
theorem Reachable.checkBounds_of_holds {r : Registry} {A : Set Question} (h : r.Reachable A) {t : Ty}
    {bounds : List Bound} (hlegible : Legible (A ∪ r.catalog.arising {⟨t, bounds⟩}))
    (hholds : r.catalog.Holds ⟨t, bounds⟩) :
    (∃ enough, ∀ depth ≥ enough, ∃ r', r.checkBounds depth t bounds = some (r', .ok ())) ∧
      ∀ depth r' outcome, r.checkBounds depth t bounds = some (r', outcome) → outcome = .ok () := by
  have hanswer : ∀ depth r' outcome, r.checkBounds depth t bounds = some (r', outcome) →
      outcome = .ok () := by
    intro depth r' outcome hrun
    have hverdict := (h.isOk_checkBounds_iff hlegible hrun).mpr hholds
    cases outcome with
    | ok => rfl
    | error e => cases hverdict
  refine ⟨?_, hanswer⟩
  -- partial correctness gives the verdict, so all that is needed is that there is an answer
  obtain ⟨enough, henough⟩ := Catalog.exists_depth_of_holds hholds
  refine ⟨enough, fun depth hdepth => ?_⟩
  obtain ⟨⟨outcome, cache⟩, hrun⟩ := henough depth hdepth r.cache
  have hrun' : r.checkBounds depth t bounds = some ({ r with cache }, outcome) := by
    rw [Registry.checkBounds, run, hrun]
    rfl
  obtain rfl := hanswer depth _ outcome hrun'
  exact ⟨_, hrun'⟩

/-- A check of bounds that succeeded succeeds in every later registry: some depth is enough for it,
and any answer is a success. No two questions that come up on the way may be written alike. -/
theorem Reachable.checkBounds_persists {r r₁ r₂ : Registry} {A B : Set Question} (h : r.Reachable A)
    {depth : Nat} {t : Ty} {bounds : List Bound}
    (hok : r.checkBounds depth t bounds = some (r₁, .ok ())) (hlater : r₁.Later B r₂)
    (hlegible : Legible (A ∪ r.catalog.arising {⟨t, bounds⟩} ∪ B ∪
      r₂.catalog.arising {⟨t, bounds⟩})) :
    (∃ enough, ∀ depth ≥ enough, ∃ r₃, r₂.checkBounds depth t bounds = some (r₃, .ok ())) ∧
      ∀ depth r₃ outcome, r₂.checkBounds depth t bounds = some (r₃, outcome) →
        outcome = .ok () := by
  have hlegible₁ : Legible (A ∪ r.catalog.arising {⟨t, bounds⟩}) :=
    hlegible.mono (Set.subset_union_left.trans Set.subset_union_left)
  have hholds : r.catalog.Holds ⟨t, bounds⟩ := (h.isOk_checkBounds_iff hlegible₁ hok).mp rfl
  -- the check itself declares nothing, so the later catalog extends the first one
  have hextends : r.catalog.Extends r₂.catalog := by
    rw [← catalog_of_run hok]
    exact hlater.extends
  exact ((h.checkBounds hok).later hlater).checkBounds_of_holds hlegible (hholds.extend hextends)

/-- Bytes can be shown, and lists of what can be shown. -/
theorem reachable_lists : Reachable ⟨lists, []⟩ ∅ := by
  have hreach := ((Reachable.new.declare ⟨"Show", [], [], [], []⟩).implement
    ⟨"Show", .prim "u8", [], [], []⟩).implement
    ⟨"Show", .named "Vec" [] [.var 0], [], [⟨.var 0, [.simple "Show"]⟩], []⟩
  have hlists : (((({} : Registry).declare ⟨"Show", [], [], [], []⟩).1.implement
      ⟨"Show", .prim "u8", [], [], []⟩).1.implement
      ⟨"Show", .named "Vec" [] [.var 0], [], [⟨.var 0, [.simple "Show"]⟩], []⟩).1 = ⟨lists, []⟩ := by
    cbv
  rwa [hlists] at hreach

/-- Lists of bytes can still be shown after another capability is declared, a second implementation
for bytes is refused, and one for integers is accepted. -/
theorem Reachable.checkBounds_persists_of_lists :
    let t : Ty := .named "Vec" [] [.prim "u8"]
    ∃ (r₁ r₂ r₃ : Registry) (B : Set Question) (e : Error) (depth : Nat),
      Registry.checkBounds ⟨lists, []⟩ 3 t [.simple "Show"] = some (r₁, .ok ()) ∧
      ((r₁.declare ⟨"Copy", [], [], [], []⟩).1.implement ⟨"Show", .prim "u8", [], [], []⟩).2
        = .error e ∧
      r₁.Later B r₂ ∧ r₂.catalog = moreLists ∧
      Legible (∅ ∪ lists.arising {⟨t, [.simple "Show"]⟩} ∪ B ∪
        r₂.catalog.arising {⟨t, [.simple "Show"]⟩}) ∧
      r₂.checkBounds depth t [.simple "Show"] = some (r₃, .ok ()) := by
  intro t
  let asked : List Question := [⟨t, [.simple "Show"]⟩, ⟨.prim "u8", [.simple "Show"]⟩]
  have hrun : (Registry.checkBounds ⟨lists, []⟩ 3 t [.simple "Show"]).map (fun p => p.2.isOk)
      = some true := by
    cbv
  obtain ⟨⟨⟨catalog, cache⟩, outcome⟩, hrun, hok⟩ := Option.map_eq_some_iff.mp hrun
  obtain rfl : catalog = lists := catalog_of_run hrun
  have hrefused : ((Registry.declare ⟨lists, cache⟩ ⟨"Copy", [], [], [], []⟩).1.implement
      ⟨"Show", .prim "u8", [], [], []⟩).2.isOk = false := by
    cbv
  have hmore : (((Registry.declare ⟨lists, cache⟩ ⟨"Copy", [], [], [], []⟩).1.implement
      ⟨"Show", .prim "u8", [], [], []⟩).1.implement ⟨"Show", .prim "i32", [], [], []⟩).1 =
      ⟨moreLists, cache⟩ := by
    cbv
  have hlater := (((Later.refl _).tail (.declare ⟨lists, cache⟩ ⟨"Copy", [], [], [], []⟩)).tail
    (.implement _ ⟨"Show", .prim "u8", [], [], []⟩)).tail
    (.implement _ ⟨"Show", .prim "i32", [], [], []⟩)
  rw [hmore] at hlater
  have hplain : lists.Plain := by simp [Catalog.Plain, lists]
  have hplain' : moreLists.Plain := by simp [Catalog.Plain, moreLists, lists]
  have hq : ⟨t, [.simple "Show"]⟩ ∈ asked := List.mem_cons_self
  have harising : lists.arising {⟨t, [.simple "Show"]⟩} ⊆ {q | q ∈ asked} :=
    hplain.arising_subset hq (by decide +kernel)
  have harising' : moreLists.arising {⟨t, [.simple "Show"]⟩} ⊆ {q | q ∈ asked} :=
    hplain'.arising_subset hq (by decide +kernel)
  have hasked : Legible {q | q ∈ asked} := legible_of_key_injective (by decide +kernel)
  have hlegible : Legible (∅ ∪ lists.arising {⟨t, [.simple "Show"]⟩} ∪ (∅ ∪ ∅ ∪ ∅ ∪ ∅) ∪
      moreLists.arising {⟨t, [.simple "Show"]⟩}) := by
    refine hasked.mono (Set.union_subset (Set.union_subset ?_ ?_) harising')
    · rwa [Set.empty_union]
    · simp
  cases outcome with
  | error e => cases hok
  | ok =>
    -- the depth that is enough is not computed, it comes from the theorem
    obtain ⟨enough, henough⟩ := (reachable_lists.checkBounds_persists hrun hlater hlegible).1
    obtain ⟨r₃, hrun₃⟩ := henough enough (Nat.le_refl enough)
    generalize hoverlap : ((Registry.declare ⟨lists, cache⟩ ⟨"Copy", [], [], [], []⟩).1.implement
      ⟨"Show", .prim "u8", [], [], []⟩).2 = refused at hrefused
    cases refused with
    | ok => cases hrefused
    | error e => exact ⟨_, _, r₃, _, e, enough, hrun, hoverlap, hlater, rfl, hlegible, hrun₃⟩

/-! ## Keys that run together -/

/-- Written forms are compared on a list that holds all questions. -/
theorem legibleParts_of_subset {D : Set Question} {asked : List Question}
    (hsubset : D ⊆ {q | q ∈ asked})
    (htypes : ∀ q ∈ asked, ∀ q' ∈ asked, q.type.render = q'.type.render → q.type = q'.type)
    (hbounds : ∀ q ∈ asked, ∀ q' ∈ asked, ∀ b ∈ q.bounds, ∀ b' ∈ q'.bounds,
      b.render = b'.render → b = b') : LegibleParts D := by
  constructor
  · rintro _ ⟨q, hq, rfl⟩ _ ⟨q', hq', rfl⟩ hrender
    exact htypes q (hsubset hq) q' (hsubset hq') hrender
  · rintro b ⟨q, hq, hb⟩ b' ⟨q', hq', hb'⟩ hrender
    exact hbounds q (hsubset hq) q' (hsubset hq') b hb b' hb' hrender

/-- It is not enough that types and bounds are told apart by their written forms. The check of
`X: Y` and `Z` reads the verdict on `X` and `Y: Z`, which no longer counts once something is
declared. -/
theorem exists_checkBounds_ok_later_error :
    ∃ (r r₁ r₂ r₃ : Registry) (A B : Set Question) (e : Error), r.Reachable A ∧
      r.checkBounds 3 (.named "X: Y" [] []) [.simple "Z"] = some (r₁, .ok ()) ∧ r₁.Later B r₂ ∧
      LegibleParts (A ∪ r.catalog.arising {⟨.named "X: Y" [] [], [.simple "Z"]⟩} ∪ B ∪
        r₂.catalog.arising {⟨.named "X: Y" [] [], [.simple "Z"]⟩}) ∧
      r₂.checkBounds 3 (.named "X: Y" [] []) [.simple "Z"] = some (r₃, .error e) := by
  let asked : List Question :=
    [⟨.named "X" [] [], [.simple "Y: Z"]⟩, ⟨.named "X: Y" [] [], [.simple "Z"]⟩]
  -- the check reads the verdict of the first one, until `W` is declared
  have hrun : ((⟨runTogether, []⟩ : Registry).checkBounds 3 (.named "X" [] [])
      [.simple "Y: Z"]).bind (fun p =>
        (p.1.checkBounds 3 (.named "X: Y" [] []) [.simple "Z"]).bind fun p' =>
          ((p'.1.declare ⟨"W", [], [], [], []⟩).1.checkBounds 3 (.named "X: Y" [] [])
            [.simple "Z"]).map fun p'' => (p'.2.isOk, p''.2.isOk)) = some (true, false) := by
    cbv
  obtain ⟨⟨r, first⟩, hfirst, hrun⟩ := Option.bind_eq_some_iff.mp hrun
  obtain ⟨⟨⟨catalog, cache⟩, second⟩, hsecond, hrun⟩ := Option.bind_eq_some_iff.mp hrun
  obtain ⟨⟨r₃, third⟩, hthird, hoks⟩ := Option.map_eq_some_iff.mp hrun
  have hcatalog : r.catalog = runTogether := catalog_of_run hfirst
  obtain rfl : catalog = runTogether := (catalog_of_run hsecond).trans hcatalog
  let later : Catalog :=
    { runTogether with capabilities := runTogether.capabilities ++ [⟨"W", [], [], [], []⟩] }
  have hdeclared : (Registry.declare ⟨runTogether, cache⟩ ⟨"W", [], [], [], []⟩).1 =
      ⟨later, cache⟩ := by
    cbv
  have hlater := (Later.refl _).tail (.declare ⟨runTogether, cache⟩ ⟨"W", [], [], [], []⟩)
  rw [hdeclared] at hlater hthird
  -- only the two questions of `asked` come up, before and after the declaration
  have hplain : runTogether.Plain := by simp [Catalog.Plain, runTogether]
  have hplain' : later.Plain := by simp [Catalog.Plain, later, runTogether]
  have harising : ∀ q ∈ asked, runTogether.arising {q} ⊆ {q | q ∈ asked} :=
    fun q hq => hplain.arising_subset hq (by decide +kernel)
  have harising' : ∀ q ∈ asked, later.arising {q} ⊆ {q | q ∈ asked} :=
    fun q hq => hplain'.arising_subset hq (by decide +kernel)
  have hsubset : ∅ ∪ runTogether.arising {⟨.named "X" [] [], [.simple "Y: Z"]⟩} ∪
      r.catalog.arising {⟨.named "X: Y" [] [], [.simple "Z"]⟩} ∪ (∅ ∪ ∅) ∪
      later.arising {⟨.named "X: Y" [] [], [.simple "Z"]⟩} ⊆ {q | q ∈ asked} := by
    rw [hcatalog, Set.empty_union, Set.union_empty, Set.union_empty]
    exact Set.union_subset (Set.union_subset (harising _ (by decide)) (harising _ (by decide)))
      (harising' _ (by decide))
  have hlegible := legibleParts_of_subset hsubset (by decide +kernel) (by decide +kernel)
  obtain ⟨hok, hfails⟩ := Prod.mk.inj hoks
  cases second with
  | error e => cases hok
  | ok =>
    cases third with
    | ok => cases hfails
    | error e =>
      exact ⟨r, _, _, r₃, _, _, e, reachable_runTogether.checkBounds hfirst, hsecond, hlater,
        hlegible, hthird⟩

end Registry

end Generics
