import Generics.Proofs.Capability.Coherence
import Generics.Proofs.Capability.Congruence
import Mathlib.Data.List.Perm.Basic

/-!
# The order of implementations

The implementation selected for a type is the first one that matches, and no other one is tried when
its conditions fail. The order of implementations makes no difference all the same: to overlap is
symmetric, so a list of implementations is accepted in any order, and of those accepted at most one
matches. Checks on catalogs that select the same implementations then run alike, whatever they
remember on the way.

## Main results

* `CheckM.Agree`: two checks give the same answer whenever both have one;
* `Catalog.Tries`: the types and arguments for which an implementation is looked for in a check;
* `Catalog.agree_checkBound`: checks on catalogs that select the same implementations agree;
* `Registry.accepts_iff`: which lists of implementations are accepted;
* `Registry.Reachable.accepts_perm`: they are accepted in any order, with the same verdicts.
-/

namespace Generics

/-! ## Checks that agree -/

namespace CheckM

/-- From the same remembered verdicts, the two checks have the same answer and leave the same
verdicts, if both have an answer. -/
def Agree {α : Type} (m m' : CheckM α) : Prop :=
  ∀ cache p p', m.run.run cache = some p → m'.run.run cache = some p' → p = p'

theorem agree_refl {α : Type} (m : CheckM α) : Agree m m :=
  fun _ _ _ h h' => Option.some.inj (h.symm.trans h')

/-- Checks agree if those agree that they are put together from: each starts from the verdicts that
the one before it left. -/
theorem congruence_agree : Congruence @Agree where
  of_pure a := agree_refl (pure a)
  of_throw e := agree_refl (throw e)
  bind := by
    intro α β m m' f f' hm hf cache p p' hrun hrun'
    rw [run_bind] at hrun hrun'
    obtain ⟨⟨first, between⟩, hfirst, hrun⟩ := Option.bind_eq_some_iff.mp hrun
    obtain ⟨first', hfirst', hrun'⟩ := Option.bind_eq_some_iff.mp hrun'
    -- both go on from the same outcome and the same verdicts
    obtain rfl := hm cache _ _ hfirst hfirst'
    cases first with
    | ok a => exact hf a between p p' hrun hrun'
    | error e => exact Option.some.inj (hrun.symm.trans hrun')
  explaining := by
    intro α m m' hm explain cache p p' hrun hrun'
    rw [run_explaining] at hrun hrun'
    obtain ⟨first, hfirst, rfl⟩ := Option.map_eq_some_iff.mp hrun
    obtain ⟨first', hfirst', rfl⟩ := Option.map_eq_some_iff.mp hrun'
    rw [hm cache _ _ hfirst hfirst']
  remembering := by
    intro m m' hm generation key cache p p' hrun hrun'
    cases hverdict : cache.verdict? generation key with
    | some verdict =>
      rw [run_remembering_of_some _ hverdict] at hrun hrun'
      exact Option.some.inj (hrun.symm.trans hrun')
    | none =>
      rw [run_remembering_of_none _ hverdict] at hrun hrun'
      obtain ⟨first, hfirst, hrun⟩ := Option.bind_eq_some_iff.mp hrun
      obtain ⟨first', hfirst', hrun'⟩ := Option.bind_eq_some_iff.mp hrun'
      obtain rfl := hm cache _ _ hfirst hfirst'
      exact Option.some.inj (hrun.symm.trans hrun')

end CheckM

namespace Catalog

/-- In deciding to the given depth whether a type satisfies a bound, an implementation of the
capability is looked for, for some type and filled-in arguments. -/
inductive Tries (c : Catalog) : Nat → Ty → Bound → String → Ty → List Ty → Prop
  /-- For the type itself. -/
  | here {depth : Nat} {t : Ty} {b : Bound} {capability : String} {args : List Ty}
      (h : c.Seeks t b capability args) : Tries c (depth + 1) t b capability t args
  /-- In deciding a premise. -/
  | premise {depth : Nat} {t t' u : Ty} {b b' : Bound} {capability : String} {args : List Ty}
      (hpremise : c.IsPremise (t', b') (t, b)) (h : Tries c depth t' b' capability u args) :
      Tries c (depth + 1) t b capability u args

/-- An implementation is looked for to satisfy bounds by capabilities only. -/
theorem Tries.isRegional_eq_false {c : Catalog} {depth : Nat} {t u : Ty} {b : Bound}
    {capability : String} {args : List Ty} (h : c.Tries depth t b capability u args) :
    b.kind.isRegional = false := by
  cases h with
  | here h => exact h.isRegional_eq_false
  | premise hpremise _ => exact hpremise.1

/-- Checks of a bound on catalogs with the same capabilities agree if the catalogs select the same
implementations wherever the first check looks for one. -/
theorem agree_checkBound {c c' : Catalog} (hcapabilities : c'.capabilities = c.capabilities)
    (hgeneration : c'.generation = c.generation) (depth depth' : Nat) {opened : List String}
    {t : Ty} {b : Bound}
    (hselect : ∀ capability u args, c.Tries depth t b capability u args →
      c'.select? capability u args = c.select? capability u args) :
    CheckM.Agree (c.checkBound depth opened t b) (c'.checkBound depth' opened t b) := by
  induction depth generalizing depth' opened t b with
  | zero =>
    -- a check that runs out of depth gives no answer to compare
    intro cache p p' hrun
    rw [checkBound] at hrun
    cases hrun
  | succ depth ih =>
    cases depth' with
    | zero =>
      intro cache p p' _ hrun'
      rw [checkBound] at hrun'
      cases hrun'
    | succ depth' =>
      refine CheckM.congruence_agree.checkBound_succ hcapabilities hgeneration depth depth'
        (fun capability args hseeks => hselect _ _ _ (.here hseeks)) ?_
      intro opened t' b' hpremise
      refine ih depth' fun capability u filled htries => hselect _ _ _ (.premise ?_ htries)
      exact hpremise htries.isRegional_eq_false

/-- Checks of a list of bounds. -/
theorem agree_checkBounds {c c' : Catalog} (hcapabilities : c'.capabilities = c.capabilities)
    (hgeneration : c'.generation = c.generation) {depth depth' : Nat} {t : Ty} {bounds : List Bound}
    (hselect : ∀ b ∈ bounds, ∀ capability u args, c.Tries depth t b capability u args →
      c'.select? capability u args = c.select? capability u args) :
    CheckM.Agree (c.checkBounds depth t bounds) (c'.checkBounds depth' t bounds) :=
  CheckM.congruence_agree.checkBounds hgeneration depth depth' fun b hb =>
    agree_checkBound hcapabilities hgeneration depth depth' (hselect b hb)

/-- In a plain catalog it can be computed what an implementation is looked for. -/
theorem Plain.exists_of_tries {c : Catalog} (h : c.Plain) {asked : List Question}
    (hclosed : ∀ q ∈ asked, ∀ b ∈ q.bounds, ⟨q.type, [b]⟩ ∈ asked ∧
      ∀ q' ∈ ((c.select? b.capability q.type b.args).map Selection.conditions).getD [],
        q' ∈ asked)
    {depth : Nat} {t u : Ty} {b : Bound} {capability : String} {args : List Ty}
    (hq : ⟨t, [b]⟩ ∈ asked) (htries : c.Tries depth t b capability u args) :
    ∃ b', ⟨u, [b']⟩ ∈ asked ∧ capability = b'.capability ∧ args = b'.args := by
  induction htries with
  | here hseeks =>
    cases hseeks with
    | own _ hfind hargs => exact ⟨_, hq, rfl, h.eq_of_fillArgs hfind hargs⟩
    | supertrait _ hsuper _ _ => exact absurd hsuper h.not_isSupertrait
  | premise hpremise _ ih =>
    obtain ⟨-, q, hasks, rfl, hb'⟩ := hpremise
    have hasked := (hclosed _ hq _ List.mem_cons_self).2 q (h.mem_conditions_of_asks hasks)
    exact ih (hclosed q hasked _ hb').1

/-! ## Another order of the same implementations -/

/-- Where at most one implementation matches, it is the first one that does in any order. -/
theorem select?_eq_of_perm {c c' : Catalog} (hperm : c.implementations.Perm c'.implementations)
    {capability : String} {t : Ty} {args : List Ty}
    (hone : (c.implementationsOf capability).countP (fun i => i.accepts t args) ≤ 1) :
    c'.select? capability t args = c.select? capability t args := by
  unfold select?
  generalize hof : (fun i => Selection.of? i (Implementation.headerOf t args)) = of
  have hselections : ((c.implementationsOf capability).filterMap of).Perm
      ((c'.implementationsOf capability).filterMap of) :=
    (hperm.filter _).filterMap of
  have hlength : ((c.implementationsOf capability).filterMap of).length ≤ 1 := by
    rw [List.length_filterMap_eq_countP]
    simpa only [← hof, Selection.isSome_of?] using hone
  rw [← List.head?_filterMap, ← List.head?_filterMap]
  -- lists of at most one selection have one order only
  generalize (c.implementationsOf capability).filterMap of = found at hselections hlength
  match found, hlength with
  | [], _ => rw [List.nil_perm.mp hselections]
  | [sel], _ => rw [List.singleton_perm.mp hselections]

/-- To overlap is symmetric as long as the counter of fresh variables does not wrap around, so a
coherent catalog is coherent in any order. -/
theorem Coherent.perm {c c' : Catalog} (h : c.Coherent)
    (hcompared : c.implementations.Pairwise fun i j =>
      i.capability = j.capability → j.header.LeavesRoom i.header)
    (hperm : c.implementations.Perm c'.implementations) : c'.Coherent := by
  have hdisjoint : c.implementations.Pairwise fun i j =>
      i.capability = j.capability → ¬ j.header.CommonInstance i.header := by
    refine (List.Pairwise.and h hcompared).imp fun {i j} hij heq hcommon => ?_
    have hoverlap := overlap_of_commonInstance (hij.2 heq) hcommon
    rw [hij.1 heq] at hoverlap
    cases hoverlap
  -- having an instance in common is symmetric whatever the variables are called
  have hdisjoint' :=
    (hperm.pairwise_iff fun hij heq hcommon => hij heq.symm hcommon.symm).mp hdisjoint
  refine List.Pairwise.imp (fun {i j} hij heq => ?_) hdisjoint'
  exact Bool.eq_false_iff.mpr fun hoverlap => hij heq (commonInstance_of_overlap hoverlap)

/-- The catalog with more implementations. -/
def add (c : Catalog) (js : List Implementation) : Catalog :=
  { c with implementations := c.implementations ++ js }

theorem add_nil (c : Catalog) : c.add [] = c := by
  rw [add, List.append_nil]

theorem add_cons (c : Catalog) (j : Implementation) (js : List Implementation) :
    c.add (j :: js) = (c.add [j]).add js := by
  simp only [add, List.append_assoc, List.cons_append, List.nil_append]

/-- A part of a coherent catalog is coherent. -/
theorem Coherent.of_add {c : Catalog} {js : List Implementation} (h : (c.add js).Coherent) :
    c.Coherent :=
  (List.pairwise_append.mp h).1

end Catalog

namespace Registry

/-! ## Lists of implementations -/

/-- The implementations are accepted one after the other. -/
inductive Accepts : Registry → List Implementation → Registry → Prop
  | nil (r : Registry) : Accepts r [] r
  | cons {r r' r'' : Registry} {i : Implementation} {is : List Implementation}
      (hok : r.implement i = (r', .ok ())) (h : Accepts r' is r'') : Accepts r (i :: is) r''

theorem Accepts.unique {r r₁ r₂ : Registry} {is : List Implementation} (h₁ : r.Accepts is r₁)
    (h₂ : r.Accepts is r₂) : r₁ = r₂ := by
  induction h₁ with
  | nil =>
    cases h₂
    rfl
  | cons hok _ ih =>
    cases h₂ with
    | cons hok' h =>
      obtain ⟨rfl, -⟩ := Prod.mk.inj (hok.symm.trans hok')
      exact ih h

/-- The first implementation is accepted if it can be stored and keeps the catalog coherent. The
others come on top of it. -/
theorem accepts_cons_iff {r r' : Registry} (hr : r.catalog.Coherent) {i : Implementation}
    {is : List Implementation} :
    r.Accepts (i :: is) r' ↔ ∃ j, r.catalog.Stores i j ∧ (r.catalog.add [j]).Coherent ∧
      Accepts { r with catalog := r.catalog.add [j] } is r' := by
  constructor
  · intro h
    cases h with
    | cons hok h =>
      unfold Registry.implement at hok
      split at hok
      · rename_i hcatalog
        obtain ⟨rfl, -⟩ := Prod.mk.inj hok
        obtain ⟨j, hstores, hoverlap, rfl⟩ := Catalog.implement_eq_ok_iff.mp hcatalog
        exact ⟨j, hstores, Catalog.coherent_concat_iff.mpr ⟨hr, hoverlap⟩, h⟩
      · cases (Prod.mk.inj hok).2
  · rintro ⟨j, hstores, hcoherent, h⟩
    have hoverlap := (Catalog.coherent_concat_iff.mp hcoherent).2
    have hcatalog := Catalog.implement_eq_ok_iff.mpr ⟨j, hstores, hoverlap, rfl⟩
    refine .cons ?_ h
    rw [Registry.implement, hcatalog]
    rfl

/-- Implementations are accepted one after the other exactly if they can be stored and the catalog
with all of them is coherent. -/
theorem accepts_iff {r r' : Registry} (hr : r.catalog.Coherent) {is : List Implementation} :
    r.Accepts is r' ↔ ∃ js, List.Forall₂ r.catalog.Stores is js ∧ (r.catalog.add js).Coherent ∧
      r' = { r with catalog := r.catalog.add js } := by
  induction is generalizing r with
  | nil =>
    constructor
    · rintro ⟨⟩
      exact ⟨[], .nil, by rwa [Catalog.add_nil], by rw [Catalog.add_nil]⟩
    · rintro ⟨js, ⟨⟩, -, rfl⟩
      rw [Catalog.add_nil]
      exact .nil r
  | cons i is ih =>
    rw [accepts_cons_iff hr]
    constructor
    · rintro ⟨j, hstores, hcoherent, h⟩
      obtain ⟨js, hall, hcoherent', rfl⟩ := (ih hcoherent).mp h
      refine ⟨j :: js, .cons hstores hall, ?_, ?_⟩
      · rwa [Catalog.add_cons _ j js]
      · rw [Catalog.add_cons _ j js]
    · -- a part of a coherent catalog is coherent, so each implementation is accepted in its turn
      rintro ⟨js, hall, hcoherent, hr'⟩
      cases hall with
      | @cons _ j _ js hstores hall =>
        rw [Catalog.add_cons _ j js] at hcoherent hr'
        refine ⟨j, hstores, hcoherent.of_add, ?_⟩
        exact (ih (r := { r with catalog := r.catalog.add [j] }) hcoherent.of_add).mpr
          ⟨js, hall, hcoherent, hr'⟩

theorem Accepts.coherent {r r₁ : Registry} (hr : r.catalog.Coherent) {is : List Implementation}
    (h : r.Accepts is r₁) : r₁.catalog.Coherent := by
  obtain ⟨js, -, hcoherent, rfl⟩ := (accepts_iff hr).mp h
  exact hcoherent

/-- Implementations that are accepted in one order are accepted in any other one, with the same
catalog up to order. -/
theorem Accepts.perm {r r₁ : Registry} (hr : r.catalog.Coherent) {is is' : List Implementation}
    (h : r.Accepts is r₁) (hperm : is.Perm is')
    (hcompared : r₁.catalog.implementations.Pairwise fun i j =>
      i.capability = j.capability → j.header.LeavesRoom i.header) :
    ∃ r₂, r.Accepts is' r₂ ∧ r₂.catalog.capabilities = r₁.catalog.capabilities ∧
      r₁.catalog.implementations.Perm r₂.catalog.implementations := by
  obtain ⟨js, hall, hcoherent, rfl⟩ := (accepts_iff hr).mp h
  -- how an implementation is stored does not depend on the others
  obtain ⟨js', hall', hjs⟩ := List.perm_comp_forall₂ hperm.symm hall
  have hstored : (r.catalog.implementations ++ js).Perm (r.catalog.implementations ++ js') :=
    hjs.symm.append_left _
  have hcoherent' : (r.catalog.add js').Coherent := hcoherent.perm hcompared hstored
  exact ⟨_, (accepts_iff hr).mpr ⟨js', hall', hcoherent', rfl⟩, rfl, hstored⟩

/-! ## Verdicts in any order -/

/-- Checks that agree give registries with the same remembered verdicts the same answers. -/
theorem run_agree {α : Type} {r₁ r₂ r₁' r₂' : Registry} {check₁ check₂ : Catalog → CheckM α}
    {outcome₁ outcome₂ : Except Error α}
    (hrun₁ : r₁.run check₁ = some (r₁', outcome₁)) (hrun₂ : r₂.run check₂ = some (r₂', outcome₂))
    (hcache : r₁.cache = r₂.cache)
    (hagree : CheckM.Agree (check₁ r₁.catalog) (check₂ r₂.catalog)) :
    outcome₁ = outcome₂ ∧ r₁'.cache = r₂'.cache := by
  unfold run at hrun₁ hrun₂
  obtain ⟨⟨o₁, cache₁⟩, hfirst₁, hrun₁⟩ := Option.bind_eq_some_iff.mp hrun₁
  obtain ⟨⟨o₂, cache₂⟩, hfirst₂, hrun₂⟩ := Option.bind_eq_some_iff.mp hrun₂
  obtain ⟨rfl, rfl⟩ := Prod.mk.inj (Option.some.inj hrun₁)
  obtain ⟨rfl, rfl⟩ := Prod.mk.inj (Option.some.inj hrun₂)
  rw [hcache] at hfirst₁
  exact Prod.mk.inj (hagree _ _ _ hfirst₁ hfirst₂)

/-- A list of implementations that is accepted is accepted in any order, and checks of bounds give
the same verdicts afterwards, whatever verdicts they find remembered. The counter of fresh variables
must not wrap around: neither when an implementation was compared with those before it, nor when
implementations are tried in the check. -/
theorem Reachable.accepts_perm {r r₁ : Registry} {A : Set Question} (h : r.Reachable A)
    {is is' : List Implementation} (hperm : is.Perm is') (haccepts : r.Accepts is r₁)
    (hcompared : r₁.catalog.implementations.Pairwise fun i j =>
      i.capability = j.capability → j.header.LeavesRoom i.header) :
    (∃ r₂, r.Accepts is' r₂) ∧ ∀ r₂, r.Accepts is' r₂ →
      ∀ (cache : VerdictCache) (depth depth' : Nat) (t : Ty) (bounds : List Bound)
        (r₁' r₂' : Registry) (outcome₁ outcome₂ : Except Error Unit),
      (∀ b ∈ bounds, ∀ capability u args, r₁.catalog.Tries depth t b capability u args →
        ∀ i ∈ r₁.catalog.implementationsOf capability,
          (Implementation.headerOf u args).LeavesRoom i.header) →
      Registry.checkBounds ⟨r₁.catalog, cache⟩ depth t bounds = some (r₁', outcome₁) →
      Registry.checkBounds ⟨r₂.catalog, cache⟩ depth' t bounds = some (r₂', outcome₂) →
      outcome₁ = outcome₂ ∧ r₁'.cache = r₂'.cache := by
  obtain ⟨r₂, haccepts', hcapabilities, hstored⟩ := haccepts.perm h.coherent hperm hcompared
  refine ⟨⟨r₂, haccepts'⟩, ?_⟩
  intro r₂' haccepts₂ cache depth depth' t bounds _ _ _ _ htried hrun₁ hrun₂
  obtain rfl := haccepts'.unique haccepts₂
  have hgeneration : r₂.catalog.generation = r₁.catalog.generation := by
    rw [Catalog.generation, Catalog.generation, hcapabilities, hstored.length_eq]
  refine run_agree hrun₁ hrun₂ rfl (Catalog.agree_checkBounds hcapabilities hgeneration ?_)
  intro b hb capability u args htries
  -- at most one implementation matches what is tried, so it is the first one in both orders
  have hpairs := (haccepts.coherent h.coherent).pairwise_accepts
    (Catalog.pairwise_implementationsOf hcompared capability) (htried b hb capability u args htries)
  exact Catalog.select?_eq_of_perm hstored (countP_le_one_of_pairwise hpairs)

/-- Bytes can be shown, and lists of what can be shown. Lists of bytes can be shown whichever of the
two is declared first. -/
theorem Reachable.accepts_perm_of_lists :
    let bytes : Implementation := ⟨"Show", .prim "u8", [], [], []⟩
    let lists : Implementation :=
      ⟨"Show", .named "Vec" [] [.var 0], [], [⟨.var 0, [.simple "Show"]⟩], []⟩
    let t : Ty := .named "Vec" [] [.prim "u8"]
    ∃ r r₁ r₂ r₁' r₂' : Registry, r.Reachable ∅ ∧ r.Accepts [bytes, lists] r₁ ∧
      r.Accepts [lists, bytes] r₂ ∧
      (r₁.catalog.implementations.Pairwise fun i j =>
        i.capability = j.capability → j.header.LeavesRoom i.header) ∧
      (∀ capability u args, r₁.catalog.Tries 3 t (.simple "Show") capability u args →
        ∀ i ∈ r₁.catalog.implementationsOf capability,
          (Implementation.headerOf u args).LeavesRoom i.header) ∧
      r₁.checkBounds 3 t [.simple "Show"] = some (r₁', .ok ()) ∧
      r₂.checkBounds 3 t [.simple "Show"] = some (r₂', .ok ()) := by
  intro bytes lists t
  let shown (is : List Implementation) : Catalog := ⟨[⟨"Show", [], [], [], []⟩], is⟩
  let asked : List Question := [⟨t, [.simple "Show"]⟩, ⟨.prim "u8", [.simple "Show"]⟩]
  have hreach : Reachable ⟨shown [], []⟩ ∅ := Reachable.new.declare ⟨"Show", [], [], [], []⟩
  have hbytes : Registry.implement ⟨shown [], []⟩ bytes = (⟨shown [bytes], []⟩, .ok ()) := by cbv
  have hlists : Registry.implement ⟨shown [], []⟩ lists = (⟨shown [lists], []⟩, .ok ()) := by cbv
  have haccepts : Accepts ⟨shown [], []⟩ [bytes, lists] ⟨shown [bytes, lists], []⟩ :=
    .cons hbytes (.cons (by cbv) (.nil _))
  have haccepts' : Accepts ⟨shown [], []⟩ [lists, bytes] ⟨shown [lists, bytes], []⟩ :=
    .cons hlists (.cons (by cbv) (.nil _))
  have hcompared : (shown [bytes, lists]).implementations.Pairwise fun i j =>
      i.capability = j.capability → j.header.LeavesRoom i.header := by
    decide +kernel
  -- all that is tried belongs to one of the two questions of `asked`
  have hplain : (shown [bytes, lists]).Plain := by simp [Catalog.Plain, shown]
  have hroom : ∀ q ∈ asked, ∀ b ∈ q.bounds,
      ∀ i ∈ (shown [bytes, lists]).implementationsOf b.capability,
        (Implementation.headerOf q.type b.args).LeavesRoom i.header := by
    decide +kernel
  have htried : ∀ capability u args,
      (shown [bytes, lists]).Tries 3 t (.simple "Show") capability u args →
      ∀ i ∈ (shown [bytes, lists]).implementationsOf capability,
        (Implementation.headerOf u args).LeavesRoom i.header := by
    intro capability u args htries
    have hq : ⟨t, [.simple "Show"]⟩ ∈ asked := List.mem_cons_self
    obtain ⟨b, hb, rfl, rfl⟩ := hplain.exists_of_tries (by decide +kernel) hq htries
    exact hroom _ hb b List.mem_cons_self
  have hrun₁ : ((⟨shown [bytes, lists], []⟩ : Registry).checkBounds 3 t [.simple "Show"]).map
      (fun p => p.2.isOk) = some true := by
    cbv
  have hrun₂ : ((⟨shown [lists, bytes], []⟩ : Registry).checkBounds 3 t [.simple "Show"]).isSome := by
    cbv
  obtain ⟨⟨r₁', outcome₁⟩, hrun₁, hok⟩ := Option.map_eq_some_iff.mp hrun₁
  obtain ⟨⟨r₂', outcome₂⟩, hrun₂⟩ := Option.isSome_iff_exists.mp hrun₂
  -- the other order is known to give the same answer, so it is enough that it gives one
  have hsame := (hreach.accepts_perm (List.Perm.swap _ _ _) haccepts hcompared).2 _ haccepts' [] 3 3 t
    [.simple "Show"] r₁' r₂' outcome₁ outcome₂ (List.forall_mem_singleton.mpr htried) hrun₁ hrun₂
  obtain rfl := hsame.1
  cases outcome₁ with
  | error e => cases hok
  | ok =>
    exact ⟨_, _, _, r₁', r₂', hreach, haccepts, haccepts', hcompared, htried, hrun₁, hrun₂⟩

end Registry

end Generics
