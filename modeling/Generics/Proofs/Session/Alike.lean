import Generics.Proofs.Alias.Remembered
import Generics.Proofs.Capability.Determined
import Generics.Proofs.Capability.Registry
import Generics.Proofs.Session.Verdicts
import Mathlib.Data.List.Forall2

/-!
# Sessions side by side

Two sessions on the same declarations may remember different verdicts and expansions, because the
declarations are shared with other sessions. If both are asked the same, they find out the same: what
is remembered is right on both sides, so it decides alike. Only the wording of a failure can differ,
because a remembered verdict may blame another of several bounds that do not hold.

## Main results

* `Session.Alike`: the two sessions agree up to the wording of bounds that do not hold;
* `Session.Alike.judge`, `Session.Alike.project`: requests that remember verdicts keep them alike;
* `Session.Alike.finish`: when both are finished, they have found out the same.
-/

namespace Generics

/-- The registry and the aliases hold the given declarations, and what they remember is right, as far
as the questions `D` go. -/
structure Remembers (c : Catalog) (table : AliasTable) (D : Set Question) (r : Registry) (a : Aliases) :
    Prop where
  catalog : r.catalog = c
  verdicts : c.SoundCache D r.cache
  table : a.table = table
  expansions : a.Sound

/-- The verdicts are on the same bounds and decide alike. -/
def Verdict.Alike (v v' : Verdict) : Prop := v.obligation = v'.obligation ∧ v.passed = v'.passed

/-- The diagnostics are the same, or they blame different bounds for two verdicts that are alike, or
they give different reasons why a bound does not hold. -/
inductive Diagnostic.Alike (vs vs' : List Verdict) : Diagnostic → Diagnostic → Prop
  | same (d : Diagnostic) : Alike vs vs' d d
  | verdict {v v' : Verdict} {d d' : Diagnostic} (hv : v ∈ vs) (hv' : v' ∈ vs') (halike : v.Alike v')
      (hd : v.diagnostic? = some d) (hd' : v'.diagnostic? = some d') : Alike vs vs' d d'
  | reason {origin : Origin} {e e' : Error} (h : e.withoutReason = e'.withoutReason) :
      Alike vs vs' ⟨origin, .coded e⟩ ⟨origin, .coded e'⟩

/-- The results agree up to the wording of bounds that do not hold. -/
structure SessionResult.Alike (r r' : SessionResult) : Prop where
  bindings : r.bindings = r'.bindings
  signatures : r.signatures = r'.signatures
  instances : r.instances = r'.instances
  failures : r.failures = r'.failures
  verdicts : List.Forall₂ Verdict.Alike r.verdicts r'.verdicts
  errors : List.Forall₂ (Diagnostic.Alike r.verdicts r'.verdicts) r.errors r'.errors

/-- Diagnostics stay alike when there are more verdicts. -/
theorem Diagnostic.Alike.mono {vs vs' ws ws' : List Verdict} {d d' : Diagnostic}
    (h : Diagnostic.Alike vs vs' d d') (hsub : vs ⊆ ws) (hsub' : vs' ⊆ ws') :
    Diagnostic.Alike ws ws' d d' := by
  cases h with
  | same d => exact .same d
  | verdict hv hv' halike hd hd' => exact .verdict (hsub hv) (hsub' hv') halike hd hd'
  | reason h => exact .reason h

/-- All bounds that were required hold, and no request failed because another bound does not hold. -/
structure SessionResult.BoundsHold (r : SessionResult) : Prop where
  verdicts : ∀ v ∈ r.verdicts, v.passed = true
  errors : ∀ d ∈ r.errors, ∀ type bound reason,
    d.problem ≠ .coded (.boundNotSatisfied type bound reason)

/-- Verdicts that are alike and passed are the same. -/
theorem Verdict.Alike.eq_of_passed {v v' : Verdict} (h : v.Alike v') (hpassed : v.passed = true) :
    v = v' := by
  obtain ⟨origin, type, bounds, outcome⟩ := v
  obtain ⟨origin', type', bounds', outcome'⟩ := v'
  obtain ⟨hobligation, hsame⟩ := h
  cases outcome with
  | error e => cases hpassed
  | ok u =>
    cases outcome' with
    | error e' => cases hsame
    | ok u' =>
      cases hobligation
      rfl

/-- Only a bound that does not hold has a reason to leave out. -/
theorem Error.eq_of_withoutReason_eq {e e' : Error} (h : e.withoutReason = e'.withoutReason)
    (hbound : ∀ type bound reason, e ≠ .boundNotSatisfied type bound reason) : e = e' := by
  cases e with
  | boundNotSatisfied type bound reason => exact absurd rfl (hbound type bound reason)
  | _ => cases e' <;> first | exact h | cases h

/-- Only bounds that do not hold make a difference. -/
theorem SessionResult.Alike.eq_of_boundsHold {r r' : SessionResult} (h : r.Alike r')
    (hbounds : r.BoundsHold) : r = r' := by
  have hverdicts : r.verdicts = r'.verdicts := by
    rw [← List.forall₂_eq_eq_eq]
    exact ((List.forall₂_and_left _ _).mpr ⟨hbounds.verdicts, h.verdicts⟩).imp
      fun v v' hv => hv.2.eq_of_passed hv.1
  have herrors : r.errors = r'.errors := by
    rw [← List.forall₂_eq_eq_eq]
    refine ((List.forall₂_and_left _ _).mpr ⟨hbounds.errors, h.errors⟩).imp fun d d' hd => ?_
    obtain ⟨hbound, halike⟩ := hd
    cases halike with
    | same d => rfl
    | @verdict v v' d d' hv hv' halike hd hd' =>
      -- a verdict that has a diagnostic did not pass
      obtain rfl := halike.eq_of_passed (hbounds.verdicts v hv)
      exact Option.some.inj (hd.symm.trans hd')
    | reason hreason =>
      rw [Error.eq_of_withoutReason_eq hreason fun type bound reason he =>
        hbound type bound reason (congrArg Problem.coded he)]
  obtain ⟨bindings, verdicts, signatures, instances, errors, failures⟩ := r
  obtain ⟨bindings', verdicts', signatures', instances', errors', failures'⟩ := r'
  obtain ⟨rfl, rfl, rfl, rfl, -, -⟩ := h
  cases hverdicts
  cases herrors
  rfl

namespace Remembers

variable {c : Catalog} {table : AliasTable} {D : Set Question} {r r' : Registry} {a : Aliases}

/-- A check of bounds decides them, and what is remembered then is right. -/
theorem checkBounds (h : Remembers c table D r a) (hlegible : Legible D) {t : Ty}
    {bounds : List Bound} (harising : c.arising {⟨t, bounds⟩} ⊆ D) {depth : Nat}
    {outcome : Except Error Unit} (hrun : r.checkBounds depth t bounds = some (r', outcome)) :
    Remembers c table D r' a ∧ (outcome.isOk = true ↔ c.Holds ⟨t, bounds⟩) := by
  obtain rfl := h.catalog
  have hcatalog := Registry.catalog_of_run hrun
  obtain ⟨hcache, hdecides⟩ := Registry.run_ensures hrun h.verdicts
    (Catalog.decides_checkBounds hlegible harising depth)
  rw [hcatalog] at hcache
  exact ⟨⟨hcatalog, hcache, h.table, h.expansions⟩, hdecides⟩

/-- The outcome is that of every other registry which holds the same declarations, up to the reason
why a condition does not hold. -/
theorem associatedType (table : AliasTable) (hlegible : Legible D) {capability : String} {t : Ty}
    (harising : c.arising (c.conditions capability t []) ⊆ D) (name : String) :
    ∃ result, ∀ (r r' : Registry) (a : Aliases) (depth : Nat) (outcome : Except Error Ty),
      Remembers c table D r a → r.associatedType depth capability t name = some (r', outcome) →
      Remembers c table D r' a ∧ outcome.mapError Error.withoutReason = result := by
  obtain ⟨result, hdetermined⟩ := Catalog.determined_associatedType hlegible harising name
  refine ⟨result, fun r r' a depth outcome h hrun => ?_⟩
  obtain rfl := h.catalog
  have hcatalog := Registry.catalog_of_run hrun
  obtain ⟨hcache, hresult⟩ := Registry.run_ensures hrun h.verdicts (hdetermined depth)
  rw [hcatalog] at hcache
  exact ⟨⟨hcatalog, hcache, h.table, h.expansions⟩, hresult⟩

end Remembers

namespace Session

/-- The two sessions agree up to the wording of bounds that do not hold, and what they remember of
the declarations they share with others is right. -/
structure Alike (c : Catalog) (table : AliasTable) (D : Set Question) (s s' : Session) : Prop where
  left : Remembers c table D s.registry s.aliases
  right : Remembers c table D s'.registry s'.aliases
  same : s' = { s with
    registry := s'.registry, aliases := s'.aliases, verdicts := s'.verdicts, errors := s'.errors }
  verdicts : List.Forall₂ Verdict.Alike s.verdicts s'.verdicts
  errors : List.Forall₂ (Diagnostic.Alike s.verdicts s'.verdicts) s.errors s'.errors

section

variable {c : Catalog} {table : AliasTable} {D : Set Question} {s s' : Session}

/-- New sessions over registries and aliases with the same declarations are alike. -/
theorem alike_new {r r' : Registry} {a a' : Aliases} (h : Remembers c table D r a)
    (h' : Remembers c table D r' a') :
    Alike c table D { registry := r, aliases := a } { registry := r', aliases := a' } :=
  ⟨h, h', rfl, .nil, .nil⟩

/-- Sessions that are alike have inferred the same. -/
theorem Alike.apply (h : Alike c table D s s') (t : Ty) : s'.apply t = s.apply t := by
  rw [h.same]
  rfl

/-- Sessions stay alike when both report a problem. -/
theorem Alike.report (h : Alike c table D s s') (origin : Origin) (problem : Problem) :
    Alike c table D (s.report origin problem).1 (s'.report origin problem).1 := by
  obtain ⟨hleft, hright, hsame, hverdicts, herrors⟩ := h
  rw [hsame]
  unfold Session.report
  by_cases hcoded : problem.isCoded = true
  · rw [if_pos hcoded, if_pos hcoded]
    exact ⟨hleft, hright, rfl, hverdicts, List.rel_append herrors (.cons (.same _) .nil)⟩
  · rw [if_neg hcoded, if_neg hcoded]
    exact ⟨hleft, hright, rfl, hverdicts, herrors⟩

/-- Sessions stay alike when the same is concluded in both. -/
theorem Alike.conclude {α : Type} (h : Alike c table D s s') (origin : Origin)
    (outcome : Except Error α) :
    Alike c table D (s.conclude origin outcome).1 (s'.conclude origin outcome).1 ∧
      (s.conclude origin outcome).2.toOption = (s'.conclude origin outcome).2.toOption := by
  cases outcome with
  | ok a => exact ⟨h, rfl⟩
  | error e => exact ⟨h.report origin (.coded e), rfl⟩

/-- Sessions that are alike differ in what they remember, their verdicts and their diagnostics only.
-/
theorem Alike.exists_eq (h : Alike c table D s s') :
    ∃ registry aliases verdicts errors, s' = { s with registry, aliases, verdicts, errors } :=
  ⟨_, _, _, _, h.same⟩

/-- The expansions that are remembered may change on both sides, as long as they stay right. -/
theorem Alike.remember (h : Alike c table D s s') {a a' : Aliases} (htable : a.table = table)
    (hsound : a.Sound) (htable' : a'.table = table) (hsound' : a'.Sound) :
    Alike c table D { s with aliases := a } { s' with aliases := a' } := by
  obtain ⟨registry', aliases', verdicts', errors', rfl⟩ := h.exists_eq
  exact ⟨⟨h.left.catalog, h.left.verdicts, htable, hsound⟩,
    ⟨h.right.catalog, h.right.verdicts, htable', hsound'⟩, rfl, h.verdicts, h.errors⟩

/-- Annotations have the same outcome in sessions that are alike. -/
theorem Alike.annotate (h : Alike c table D s s') (origin : Origin) (text : String) :
    Alike c table D (s.annotate origin text).1 (s'.annotate origin text).1 ∧
      (s.annotate origin text).2.toOption = (s'.annotate origin text).2.toOption := by
  obtain ⟨hanswer, htable, hsound⟩ := h.left.expansions.expand (Hole.nameAll text).1
  obtain ⟨hanswer', htable', hsound'⟩ := h.right.expansions.expand (Hole.nameAll text).1
  have hsame : (s'.aliases.expand (Hole.nameAll text).1).2 =
      (s.aliases.expand (Hole.nameAll text).1).2 := by
    rw [hanswer, hanswer', h.left.table, h.right.table]
  have hnext := h.remember (htable.trans h.left.table) hsound (htable'.trans h.right.table) hsound'
  obtain ⟨registry', aliases', verdicts', errors', rfl⟩ := h.exists_eq
  unfold Session.annotate
  simp only [hsame]
  split
  · exact hnext.conclude origin _
  · exact ⟨⟨hnext.left, hnext.right, rfl, hnext.verdicts, hnext.errors⟩, rfl⟩

/-- Unifications have the same outcome in sessions that are alike. -/
theorem Alike.unify (h : Alike c table D s s') (origin : Origin) (a b : Ty) :
    Alike c table D (s.unify origin a b).1 (s'.unify origin a b).1 ∧
      (s.unify origin a b).2.toOption = (s'.unify origin a b).2.toOption := by
  obtain ⟨registry', aliases', verdicts', errors', rfl⟩ := h.exists_eq
  have hnext : Alike c table D { s with subst := (s.subst.unify a b).1 }
      { s with
        subst := (s.subst.unify a b).1, registry := registry', aliases := aliases'
        verdicts := verdicts', errors := errors' } :=
    ⟨h.left, h.right, rfl, h.verdicts, h.errors⟩
  exact hnext.conclude origin (s.subst.unify a b).2

/-- Sessions stay alike when both record a binding. -/
theorem Alike.record (h : Alike c table D s s') (origin : Origin) (name : String) (t : Ty) :
    Alike c table D (s.record origin name t) (s'.record origin name t) := by
  obtain ⟨registry', aliases', verdicts', errors', rfl⟩ := h.exists_eq
  exact ⟨h.left, h.right, rfl, h.verdicts, h.errors⟩

/-- Signatures have the same outcome in sessions that are alike. -/
theorem Alike.checkSignature (h : Alike c table D s s') (origin : Origin) (sig : Signature)
    (params : List RegionParam) (constraints : List RegionConstraint) :
    Alike c table D (s.checkSignature origin sig params constraints).1
        (s'.checkSignature origin sig params constraints).1 ∧
      (s.checkSignature origin sig params constraints).2.toOption =
        (s'.checkSignature origin sig params constraints).2.toOption := by
  have hconclude (e : Error) := h.conclude origin (.error e : Except Error SignatureCheck)
  obtain ⟨registry', aliases', verdicts', errors', rfl⟩ := h.exists_eq
  unfold Session.checkSignature
  simp only
  split
  · exact hconclude _
  · exact ⟨⟨h.left, h.right, rfl, h.verdicts, h.errors⟩, rfl⟩

/-- Instances have the same outcome in sessions that are alike. -/
theorem Alike.instantiate (h : Alike c table D s s') (origin : Origin) (item : Const.Context)
    (args : List ConstExpr) :
    Alike c table D (s.instantiate origin item args).1 (s'.instantiate origin item args).1 ∧
      (s.instantiate origin item args).2.toOption = (s'.instantiate origin item args).2.toOption := by
  obtain ⟨registry', aliases', verdicts', errors', rfl⟩ := h.exists_eq
  have hnext : Alike c table D { s with consts := (evaluateAll s.consts args).1 }
      { s with
        consts := (evaluateAll s.consts args).1, registry := registry', aliases := aliases'
        verdicts := verdicts', errors := errors' } :=
    ⟨h.left, h.right, rfl, h.verdicts, h.errors⟩
  unfold Session.instantiate
  simp only
  split
  · exact hnext.conclude origin _
  · exact ⟨⟨hnext.left, hnext.right, rfl, hnext.verdicts, hnext.errors⟩, rfl⟩

/-! ## Bounds -/

/-- Two verdicts that are alike are recorded, each with its diagnostic. -/
theorem Alike.verdict (h : Alike c table D s s') {r r' : Registry}
    (hr : Remembers c table D r s.aliases) (hr' : Remembers c table D r' s'.aliases) {v v' : Verdict}
    (hv : v.Alike v') :
    Alike c table D
        ({ s with registry := r, verdicts := s.verdicts ++ [v] }.conclude v.origin v.outcome).1
        ({ s' with registry := r', verdicts := s'.verdicts ++ [v'] }.conclude v'.origin v'.outcome).1 ∧
      ({ s with registry := r, verdicts := s.verdicts ++ [v] }.conclude v.origin v.outcome).2.toOption =
        ({ s' with registry := r', verdicts := s'.verdicts ++ [v'] }.conclude v'.origin
          v'.outcome).2.toOption := by
  obtain ⟨registry', aliases', verdicts', errors', rfl⟩ := h.exists_eq
  have hverdicts : List.Forall₂ Verdict.Alike (s.verdicts ++ [v]) (verdicts' ++ [v']) :=
    List.rel_append h.verdicts (.cons hv .nil)
  -- diagnostics stay alike when there are more verdicts to go back to
  have herrors : List.Forall₂ (Diagnostic.Alike (s.verdicts ++ [v]) (verdicts' ++ [v'])) s.errors
      errors' :=
    h.errors.imp fun _ _ hd => hd.mono (List.subset_append_left _ _) (List.subset_append_left _ _)
  obtain ⟨origin, t, bounds, outcome⟩ := v
  obtain ⟨origin', t', bounds', outcome'⟩ := v'
  cases outcome with
  | ok u =>
    cases outcome' with
    | ok u' => exact ⟨⟨hr, hr', rfl, hverdicts, herrors⟩, rfl⟩
    | error e' => cases hv.2
  | error e =>
    cases outcome' with
    | ok u' => cases hv.2
    | error e' =>
      refine ⟨⟨hr, hr', rfl, hverdicts, List.rel_append herrors (.cons ?_ .nil)⟩, rfl⟩
      exact .verdict (by simp) (by simp) hv rfl rfl

/-- Judging bounds passes in one of two sessions that are alike if it passes in the other. -/
theorem Alike.judge (h : Alike c table D s s') (hlegible : Legible D) {origin : Origin} {t : Ty}
    {bounds : List Bound} (harising : c.arising {⟨t, bounds⟩} ⊆ D) {depth depth' : Nat}
    {p p' : Session × Except Diagnostic Unit} (hp : s.judge depth origin t bounds = some p)
    (hp' : s'.judge depth' origin t bounds = some p') :
    Alike c table D p.1 p'.1 ∧ p.2.toOption = p'.2.toOption := by
  unfold Session.judge at hp hp'
  obtain ⟨⟨r, outcome⟩, hrun, hreturn⟩ := Option.bind_eq_some_iff.mp hp
  obtain ⟨⟨r', outcome'⟩, hrun', hreturn'⟩ := Option.bind_eq_some_iff.mp hp'
  obtain rfl := Option.some.inj hreturn
  obtain rfl := Option.some.inj hreturn'
  obtain ⟨hr, hholds⟩ := h.left.checkBounds hlegible harising hrun
  obtain ⟨hr', hholds'⟩ := h.right.checkBounds hlegible harising hrun'
  have hpassed : (Verdict.mk origin t bounds outcome).passed =
      (Verdict.mk origin t bounds outcome').passed := by
    have hiff := hholds.trans hholds'.symm
    cases outcome <;> cases outcome' <;> simp_all [Verdict.passed, Except.isOk, Except.toBool]
  exact h.verdict hr hr' ⟨rfl, hpassed⟩

/-- The questions that come up when bounds are required of a type: none as long as it is not fully
inferred. -/
def asked (c : Catalog) (s : Session) (t : Ty) (bounds : List Bound) : Set Question :=
  {q | (s.apply t).isGround = true ∧ q ∈ c.arising {⟨s.apply t, bounds⟩}}

/-- Requiring bounds passes in one of two sessions that are alike if it passes in the other. -/
theorem Alike.require (h : Alike c table D s s') (hlegible : Legible D) {origin : Origin} {t : Ty}
    {bounds : List Bound} (hasked : asked c s t bounds ⊆ D) {depth depth' : Nat}
    {p p' : Session × Except Diagnostic Unit} (hp : s.require depth origin t bounds = some p)
    (hp' : s'.require depth' origin t bounds = some p') :
    Alike c table D p.1 p'.1 ∧ p.2.toOption = p'.2.toOption := by
  unfold Session.require at hp hp'
  rw [h.apply] at hp'
  by_cases hground : (s.apply t).isGround = true
  · rw [if_pos hground] at hp hp'
    exact h.judge hlegible (fun q hq => hasked ⟨hground, hq⟩) hp hp'
  · rw [if_neg hground] at hp hp'
    obtain rfl := Option.some.inj hp
    obtain rfl := Option.some.inj hp'
    obtain ⟨registry', aliases', verdicts', errors', rfl⟩ := h.exists_eq
    exact ⟨⟨h.left, h.right, rfl, h.verdicts, h.errors⟩, rfl⟩

/-- Projecting gives the same type in sessions that are alike, or none in both. -/
theorem Alike.project (h : Alike c table D s s') (hlegible : Legible D) {origin : Origin}
    {capability : String} {t : Ty} {name : String}
    (harising : c.arising (c.conditions capability (s.apply t) []) ⊆ D) {depth depth' : Nat}
    {p p' : Session × Except Diagnostic Ty} (hp : s.project depth origin capability t name = some p)
    (hp' : s'.project depth' origin capability t name = some p') :
    Alike c table D p.1 p'.1 ∧ p.2.toOption = p'.2.toOption := by
  unfold Session.project at hp hp'
  rw [h.apply] at hp'
  obtain ⟨⟨r, outcome⟩, hrun, hreturn⟩ := Option.bind_eq_some_iff.mp hp
  obtain ⟨⟨r', outcome'⟩, hrun', hreturn'⟩ := Option.bind_eq_some_iff.mp hp'
  obtain rfl := Option.some.inj hreturn
  obtain rfl := Option.some.inj hreturn'
  -- the result does not depend on what is remembered, up to the reason of a failure
  obtain ⟨result, hresult⟩ := Remembers.associatedType table hlegible harising name
  obtain ⟨hr, houtcome⟩ := hresult _ _ _ _ _ h.left hrun
  obtain ⟨hr', houtcome'⟩ := hresult _ _ _ _ _ h.right hrun'
  have hsame := houtcome.trans houtcome'.symm
  obtain ⟨registry', aliases', verdicts', errors', rfl⟩ := h.exists_eq
  cases outcome with
  | ok t =>
    cases outcome' with
    | ok t' =>
      obtain rfl : t = t' := Except.ok.inj hsame
      exact ⟨⟨hr, hr', rfl, h.verdicts, h.errors⟩, rfl⟩
    | error e' => cases hsame
  | error e =>
    cases outcome' with
    | ok t' => cases hsame
    | error e' =>
      have hreason : e.withoutReason = e'.withoutReason := Except.error.inj hsame
      exact ⟨⟨hr, hr', rfl, h.verdicts, List.rel_append h.errors (.cons (.reason hreason) .nil)⟩, rfl⟩

/-- Sessions stay alike when both judge the requirements that wait. -/
theorem Alike.settle (h : Alike c table D s s') (hlegible : Legible D) {os : List Obligation}
    (hasked : ∀ o ∈ os, asked c s o.type o.bounds ⊆ D) {depth depth' : Nat} {t t' : Session}
    (ht : s.settle depth os = some t) (ht' : s'.settle depth' os = some t') : Alike c table D t t' := by
  induction os generalizing s s' with
  | nil =>
    obtain rfl := Option.some.inj ht
    obtain rfl := Option.some.inj ht'
    exact h
  | cons o os ih =>
    obtain ⟨ho, hos⟩ := List.forall_mem_cons.mp hasked
    rw [Session.settle] at ht ht'
    rw [h.apply] at ht'
    by_cases hground : (s.apply o.type).isGround = true
    · rw [if_pos hground] at ht ht'
      obtain ⟨⟨next, outcome⟩, hjudge, hrest⟩ := Option.bind_eq_some_iff.mp ht
      obtain ⟨⟨next', outcome'⟩, hjudge', hrest'⟩ := Option.bind_eq_some_iff.mp ht'
      have hnext := (h.judge hlegible (fun q hq => ho ⟨hground, hq⟩) hjudge hjudge').1
      refine ih hnext (fun o' ho' => ?_) hrest hrest'
      have hsubst : next.subst = s.subst := judge_subst hjudge
      rw [asked, Session.apply, hsubst]
      exact hos o' ho'
    · rw [if_neg hground] at ht ht'
      -- both sides give the same verdict on a type that could not be inferred
      have hnext (e : Error) := (h.verdict h.left h.right
        (v := ⟨o.origin, s.apply o.type, o.bounds, .error e⟩) ⟨rfl, rfl⟩).1
      exact ih (hnext _) hos ht ht'

/-- When both sessions are finished, they have found out the same. -/
theorem Alike.finish (h : Alike c table D s s') (hlegible : Legible D)
    (hasked : ∀ o ∈ s.deferred, asked c s o.type o.bounds ⊆ D) {depth depth' : Nat}
    {p p' : Session × SessionResult} (hp : s.finish depth = some p) (hp' : s'.finish depth' = some p') :
    Alike c table D p.1 p'.1 ∧ p.2.Alike p'.2 := by
  unfold Session.finish at hp hp'
  have hdeferred : s'.deferred = s.deferred := by rw [h.same]
  rw [hdeferred] at hp'
  obtain ⟨t, hsettle, hreturn⟩ := Option.bind_eq_some_iff.mp hp
  obtain ⟨t', hsettle', hreturn'⟩ := Option.bind_eq_some_iff.mp hp'
  obtain rfl := Option.some.inj hreturn
  obtain rfl := Option.some.inj hreturn'
  have hsettled := h.settle hlegible hasked hsettle hsettle'
  obtain ⟨registry', aliases', verdicts', errors', rfl⟩ := hsettled.exists_eq
  exact ⟨⟨hsettled.left, hsettled.right, rfl, hsettled.verdicts, hsettled.errors⟩,
    ⟨rfl, rfl, rfl, rfl, hsettled.verdicts, hsettled.errors⟩⟩

end

end Session

end Generics
