import Generics.Manifest.Report
import Generics.Proofs.Session.Alike

/-!
# Units side by side

The units of a manifest are checked one after the other on the same declarations, and what is
remembered of bounds and aliases is handed on from one to the next. Here a unit that is checked after
some units is compared with the same unit checked after others.

## Main results

* `UnitM.agree_step`: the same step keeps two runs of a unit alike;
* `CodeUnit.check_alike`: the two runs find out the same, up to the wording of bounds that do not hold;
* `CodeUnit.checkAll_append`: what is remembered when the turn of a unit comes is right.
-/

namespace Generics

open Text

/-- The two runs of a unit agree up to the wording of bounds that do not hold. -/
structure UnitRun.Alike (c : Catalog) (table : AliasTable) (D : Set Question) (u u' : UnitRun) :
    Prop where
  session : Session.Alike c table D u.session u'.session
  consts : u'.consts = u.consts
  names : u'.names = u.names

namespace UnitM

variable {c : Catalog} {table : AliasTable} {D : Set Question} {α β : Type} {u u' : UnitRun}

/-- If both requests have an answer, they succeed with the same value or fail, and the units agree
after that. -/
def Agree (c : Catalog) (table : AliasTable) (D : Set Question) (m m' : UnitM α) (u u' : UnitRun) :
    Prop :=
  ∀ p p', m.run.run u = some p → m'.run.run u' = some p' →
    UnitRun.Alike c table D p.2 p'.2 ∧ p.1.toOption = p'.1.toOption

/-- A value is the same in both runs. -/
theorem agree_pure (h : UnitRun.Alike c table D u u') (a : α) :
    Agree c table D (pure a) (pure a) u u' := by
  intro p p' hp hp'
  obtain rfl := Option.some.inj hp
  obtain rfl := Option.some.inj hp'
  exact ⟨h, rfl⟩

/-- What the second part of a computation is run with, if the first did not fail. -/
theorem run_bind (m : UnitM α) (f : α → UnitM β) (u : UnitRun) :
    (m >>= f).run.run u = (m.run.run u).bind fun p =>
      match p with
      | (.ok a, u) => (f a).run.run u
      | (.error d, u) => some (.error d, u) := by
  simp only [ExceptT.run_bind, StateT.run_bind]
  cases m.run.run u with
  | none => rfl
  | some p => rcases p with ⟨_ | _, _⟩ <;> rfl

/-- A question that may not be answered changes the session. -/
theorem run_ask (f : Session → Option (Session × Except Diagnostic α)) (u : UnitRun) :
    (ask f).run.run u = (f u.session).map fun p => (p.2, { u with session := p.1 }) := by
  show (f u.session).bind _ = _
  cases f u.session <;> rfl

/-- A request changes the session. -/
theorem run_request (f : Session → Session × Except Diagnostic α) (u : UnitRun) :
    (request f).run.run u = some ((f u.session).2, { u with session := (f u.session).1 }) := rfl

/-- Computations agree if their parts do. -/
theorem Agree.bind {m m' : UnitM α} {f f' : α → UnitM β} (hm : Agree c table D m m' u u')
    (hf : ∀ a v v', m.run.run u = some (.ok a, v) → UnitRun.Alike c table D v v' →
      Agree c table D (f a) (f' a) v v') :
    Agree c table D (m >>= f) (m' >>= f') u u' := by
  intro p p' hp hp'
  rw [run_bind] at hp hp'
  obtain ⟨⟨first, v⟩, hfirst, hrest⟩ := Option.bind_eq_some_iff.mp hp
  obtain ⟨⟨first', v'⟩, hfirst', hrest'⟩ := Option.bind_eq_some_iff.mp hp'
  obtain ⟨halike, hsame⟩ := hm _ _ hfirst hfirst'
  cases first with
  | ok a =>
    cases first' with
    | ok a' =>
      obtain rfl : a = a' := Option.some.inj hsame
      exact hf a v v' hfirst halike p p' hrest hrest'
    | error d' => cases hsame
  | error d =>
    -- the two diagnostics may differ, but neither run goes on
    cases first' with
    | ok a' => cases hsame
    | error d' =>
      obtain rfl := Option.some.inj hrest
      obtain rfl := Option.some.inj hrest'
      exact ⟨halike, rfl⟩

/-- The rest may look at the unit. -/
theorem run_get_bind (f : UnitRun → UnitM α) (u : UnitRun) :
    (get >>= f).run.run u = (f u).run.run u := rfl

/-- What a computation looks up it may depend on. -/
theorem agree_get {f f' : UnitRun → UnitM α} (h : Agree c table D (f u) (f' u') u u') :
    Agree c table D (get >>= f) (get >>= f') u u' := by
  unfold Agree
  rw [run_get_bind, run_get_bind]
  exact h

/-- A question agrees if sessions that are alike answer it alike. -/
theorem agree_ask (h : UnitRun.Alike c table D u u')
    {f f' : Session → Option (Session × Except Diagnostic α)}
    (hf : ∀ p p', f u.session = some p → f' u'.session = some p' →
      Session.Alike c table D p.1 p'.1 ∧ p.2.toOption = p'.2.toOption) :
    Agree c table D (ask f) (ask f') u u' := by
  intro p p' hp hp'
  rw [run_ask] at hp hp'
  obtain ⟨answer, hanswer, rfl⟩ := Option.map_eq_some_iff.mp hp
  obtain ⟨answer', hanswer', rfl⟩ := Option.map_eq_some_iff.mp hp'
  obtain ⟨halike, hsame⟩ := hf answer answer' hanswer hanswer'
  exact ⟨⟨halike, h.consts, h.names⟩, hsame⟩

/-- A request agrees if sessions that are alike serve it alike. -/
theorem agree_request (h : UnitRun.Alike c table D u u')
    {f : Session → Session × Except Diagnostic α}
    (hf : Session.Alike c table D (f u.session).1 (f u'.session).1 ∧
      (f u.session).2.toOption = (f u'.session).2.toOption) :
    Agree c table D (request f) (request f) u u' := by
  refine agree_ask h fun p p' hp hp' => ?_
  obtain rfl := Option.some.inj hp
  obtain rfl := Option.some.inj hp'
  exact hf

/-- A list agrees if what is done to each member does. -/
theorem agree_mapM {f : α → UnitM β}
    (hf : ∀ a u u', UnitRun.Alike c table D u u' → Agree c table D (f a) (f a) u u')
    (h : UnitRun.Alike c table D u u') (l : List α) :
    Agree c table D (l.mapM f) (l.mapM f) u u' := by
  induction l generalizing u u' with
  | nil => exact agree_pure h []
  | cons a l ih =>
    rw [List.mapM_cons]
    refine (hf a u u' h).bind fun b v v' _ hv => (ih hv).bind fun bs w w' _ hw => ?_
    exact agree_pure hw (b :: bs)

/-- Types of terms agree. -/
theorem agree_term (h : UnitRun.Alike c table D u u') (origin : Origin) (text : String) :
    Agree c table D (term origin text) (term origin text) u u' := by
  refine agree_get ?_
  simp only [h.names]
  split
  · exact agree_pure h _
  · exact agree_request h (h.session.annotate origin text)

/-- Types of terms that may be left out agree. -/
theorem agree_term? (h : UnitRun.Alike c table D u u') (origin : Origin) (text : String) :
    Agree c table D (term? origin text) (term? origin text) u u' := by
  unfold term?
  split
  · exact agree_pure h none
  · rw [map_eq_pure_bind]
    exact (agree_term h origin text).bind fun t v v' _ hv => agree_pure hv (some t)

/-- Bounds are read alike. -/
theorem agree_bounds (h : UnitRun.Alike c table D u u') (origin : Origin) (texts : List String) :
    Agree c table D (bounds origin texts) (bounds origin texts) u u' := by
  obtain ⟨result, hsettled⟩ := ExpandM.Steady.mapM ExpandM.steady_bound texts table
  have hleft := hsettled u.session.aliases h.session.left.table h.session.left.expansions
  have hright := hsettled u'.session.aliases h.session.right.table h.session.right.expansions
  refine agree_request h ?_
  generalize (texts.mapM ExpandM.bound).run.run u.session.aliases = answer at hleft ⊢
  generalize (texts.mapM ExpandM.bound).run.run u'.session.aliases = answer' at hright ⊢
  obtain ⟨_, a⟩ := answer
  obtain ⟨outcome, a'⟩ := answer'
  obtain ⟨rfl, htable, hsound⟩ := hleft
  obtain ⟨rfl, htable', hsound'⟩ := hright
  have hnext := h.session.remember htable hsound htable' hsound'
  cases outcome with
  | ok bounds => exact ⟨hnext, rfl⟩
  | error problem => exact ⟨hnext.report origin problem, rfl⟩

/-- Constraints are read alike. -/
theorem agree_constraint (h : UnitRun.Alike c table D u u') (origin : Origin)
    (constraint : WrittenConstraint) :
    Agree c table D (UnitM.constraint origin constraint) (UnitM.constraint origin constraint) u
      u' := by
  cases constraint with
  | outlives longer shorter => exact agree_pure h _
  | equal a b => exact agree_pure h _
  | typeOutlives type region =>
    exact (agree_term h origin type).bind fun t v v' _ hv => agree_pure hv _

/-- Bindings are made alike. -/
theorem agree_bind (h : UnitRun.Alike c table D u u') (origin : Origin) (name : String) (t : Ty) :
    Agree c table D (UnitM.bind origin name t) (UnitM.bind origin name t) u u' := by
  intro p p' hp hp'
  obtain rfl := Option.some.inj hp
  obtain rfl := Option.some.inj hp'
  refine ⟨⟨h.session.record origin name t, h.consts, ?_⟩, rfl⟩
  exact congrArg ((name, t) :: ·) h.names

/-- Failures are reported alike. -/
theorem agree_fail (h : UnitRun.Alike c table D u u') (origin : Origin) (problem : Problem) :
    Agree c table D (fail origin problem : UnitM α) (fail origin problem) u u' :=
  agree_request h ⟨h.session.report origin problem, rfl⟩

/-- The questions about bounds that come up when the request of a step is made. -/
def asked (origin : Origin) (u : UnitRun) : Request → Set Question
  | .require type texts =>
    {q | ∃ t v bs w, (term origin type).run.run u = some (.ok t, v) ∧
      (bounds origin texts).run.run v = some (.ok bs, w) ∧
      q ∈ w.session.asked w.session.registry.catalog t bs}
  | .project type capability _ _ =>
    {q | ∃ t v, (term origin type).run.run u = some (.ok t, v) ∧
      q ∈ v.session.registry.catalog.arising
        (v.session.registry.catalog.conditions capability (v.session.apply t) [])}
  | _ => ∅

/-- The same step keeps units alike. -/
theorem agree_step (h : UnitRun.Alike c table D u u') (hlegible : Legible D) {origin : Origin}
    {r : Request} (hasked : asked origin u r ⊆ D) (depth depth' : Nat) :
    Agree c table D (step depth origin r) (step depth' origin r) u u' := by
  cases r with
  | bind name type =>
    exact (agree_term h origin type).bind fun t v v' _ hv => agree_bind hv origin name t
  | unify a b =>
    refine (agree_term h origin a).bind fun a v v' _ hv => ?_
    refine (agree_term hv origin b).bind fun b w w' _ hw => ?_
    exact agree_request hw (hw.session.unify origin a b)
  | require type texts =>
    refine (agree_term h origin type).bind fun t v v' ht hv => ?_
    refine (agree_bounds hv origin texts).bind fun bs w w' hbs hw => ?_
    -- `w` is the unit that the requirement is made in, so its questions are those of the step
    refine agree_ask hw fun p p' hp hp' => hw.session.require hlegible (fun q hq => ?_) hp hp'
    rw [← hw.session.left.catalog] at hq
    exact hasked ⟨t, v, bs, w, ht, hbs, hq⟩
  | project type capability item name =>
    refine (agree_term h origin type).bind fun t v v' ht hv => ?_
    have harising : c.arising (c.conditions capability (v.session.apply t) []) ⊆ D := by
      rw [← hv.session.left.catalog]
      exact fun q hq => hasked ⟨t, v, ht, hq⟩
    refine (agree_ask hv fun p p' => hv.session.project hlegible harising).bind
      fun projected w w' _ hw => ?_
    split
    · exact agree_bind hw origin name projected
    · exact agree_pure hw ()
  | signature name receiver params ret regions constraints =>
    refine (agree_term? h origin receiver).bind fun receiver v v' _ hv => ?_
    refine (agree_mapM (fun text _ _ h => agree_term h origin text) hv params).bind
      fun params w w' _ hw => ?_
    refine (agree_term? hw origin ret).bind fun ret x x' _ hx => ?_
    refine (agree_mapM (fun written _ _ h => agree_constraint h origin written) hx constraints).bind
      fun constraints y y' _ hy => ?_
    refine (agree_request hy (hy.session.checkSignature origin _ regions constraints)).bind
      fun _ z z' _ hz => ?_
    exact agree_pure hz ()
  | instantiate owner args =>
    refine agree_get ?_
    simp only [h.consts]
    split
    · exact agree_fail h origin _
    · refine (agree_request h (h.session.instantiate origin _ _)).bind fun _ v v' _ hv => ?_
      exact agree_pure hv ()

end UnitM

namespace CodeUnit

variable {c : Catalog} {table : AliasTable} {D : Set Question}

/-- The questions about bounds that come up when the steps of a unit are made and the unit is
finished after them. -/
def askedFrom (depth : Nat) (unitName : String) (u : UnitRun) : List (Located Request) → Set Question
  | [] =>
    {q | ∃ o ∈ u.session.deferred, q ∈ u.session.asked u.session.registry.catalog o.type o.bounds}
  | s :: steps =>
    let origin : Origin := ⟨s!"{unitName}: {s.value.describe}", some s.pos⟩
    UnitM.asked origin u s.value ∪
      {q | ∃ outcome v, (UnitM.step depth origin s.value).run.run u = some (outcome, v) ∧
        q ∈ askedFrom depth unitName v steps}

/-- The questions about bounds that come up when a unit is checked. -/
def asked (depth : Nat) (d : Declarations) (u : CodeUnit) : Set Question :=
  askedFrom depth u.name
    { session := { registry := d.registry, aliases := d.aliases }, consts := d.consts } u.steps

/-- The questions about bounds that come up when units are checked one after the other. -/
def askedAll (depth : Nat) (d : Declarations) : List CodeUnit → Set Question
  | [] => ∅
  | u :: us =>
    u.asked depth d ∪ {q | ∃ e r, u.check depth d = some (e, r) ∧ q ∈ askedAll depth e us}

/-- The next unit is checked on what the first one hands on. -/
theorem checkAll_cons {depth : Nat} {d e : Declarations} {u : CodeUnit} {r : SessionResult}
    (h : u.check depth d = some (e, r)) (us : List CodeUnit) :
    checkAll depth d (u :: us) = (checkAll depth e us).map ((u.name, r) :: ·) := by
  show (u.check depth d).bind _ = _
  rw [h]
  show (checkAll depth e us).bind _ = _
  cases checkAll depth e us <;> rfl

/-- What units ask is what the first asks and what the others ask after it. -/
theorem askedAll_cons {depth : Nat} {d e : Declarations} {u : CodeUnit} {r : SessionResult}
    (h : u.check depth d = some (e, r)) (us : List CodeUnit) :
    askedAll depth d (u :: us) = u.asked depth d ∪ askedAll depth e us := by
  simp [askedAll, h]

/-- The same steps keep units alike, and what is asked about the bounds put off until then is among the
questions. -/
theorem runSteps_alike (hlegible : Legible D) {depth depth' : Nat} {unitName : String}
    {steps : List (Located Request)} {u u' v v' : UnitRun} (h : UnitRun.Alike c table D u u')
    (hasked : askedFrom depth unitName u steps ⊆ D)
    (hrun : runSteps depth unitName u steps = some v)
    (hrun' : runSteps depth' unitName u' steps = some v') :
    UnitRun.Alike c table D v v' ∧
      ∀ o ∈ v.session.deferred, v.session.asked c o.type o.bounds ⊆ D := by
  induction steps generalizing u u' with
  | nil =>
    obtain rfl := Option.some.inj hrun
    obtain rfl := Option.some.inj hrun'
    -- what waits at the end is asked about when the unit is finished
    refine ⟨h, fun o ho q hq => hasked ⟨o, ho, ?_⟩⟩
    rw [h.session.left.catalog]
    exact hq
  | cons s steps ih =>
    obtain ⟨hstep, hsteps⟩ := Set.union_subset_iff.mp hasked
    obtain ⟨⟨outcome, w⟩, hw, hrest⟩ := Option.bind_eq_some_iff.mp hrun
    obtain ⟨⟨outcome', w'⟩, hw', hrest'⟩ := Option.bind_eq_some_iff.mp hrun'
    have hnext := (UnitM.agree_step h hlegible hstep depth depth' _ _ hw hw').1
    exact ih hnext (fun q hq => hsteps ⟨outcome, w, hw, hq⟩) hrest hrest'

/-- The unit is checked twice on the same declarations, whatever is remembered of them. -/
theorem check_alike (hlegible : Legible D) {depth depth' : Nat} {u : CodeUnit}
    {d d' e e' : Declarations} {r r' : SessionResult}
    (h : Remembers c table D d.registry d.aliases) (h' : Remembers c table D d'.registry d'.aliases)
    (hconsts : d'.consts = d.consts) (hasked : u.asked depth d ⊆ D)
    (hrun : u.check depth d = some (e, r)) (hrun' : u.check depth' d' = some (e', r')) :
    r.Alike r' ∧ Remembers c table D e.registry e.aliases ∧ e.consts = d.consts := by
  obtain ⟨v, hsteps, hfinish⟩ := Option.bind_eq_some_iff.mp hrun
  obtain ⟨v', hsteps', hfinish'⟩ := Option.bind_eq_some_iff.mp hrun'
  obtain ⟨⟨s, result⟩, hs, hreturn⟩ := Option.bind_eq_some_iff.mp hfinish
  obtain ⟨⟨s', result'⟩, hs', hreturn'⟩ := Option.bind_eq_some_iff.mp hfinish'
  obtain ⟨rfl, rfl⟩ := Prod.mk.inj (Option.some.inj hreturn)
  obtain ⟨rfl, rfl⟩ := Prod.mk.inj (Option.some.inj hreturn')
  have hstart : UnitRun.Alike c table D
      { session := { registry := d.registry, aliases := d.aliases }, consts := d.consts }
      { session := { registry := d'.registry, aliases := d'.aliases }, consts := d'.consts } :=
    ⟨Session.alike_new h h', hconsts, rfl⟩
  obtain ⟨hv, hdeferred⟩ := runSteps_alike hlegible hstart hasked hsteps hsteps'
  obtain ⟨hend, hresult⟩ := hv.session.finish hlegible hdeferred hs hs'
  exact ⟨hresult, hend.left, rfl⟩

/-- A unit that stands among others is checked on the declarations as they are, and what is
remembered of them then is right. -/
theorem checkAll_append (hlegible : Legible D) {depth : Nat} {before after : List CodeUnit}
    {u : CodeUnit} {d : Declarations} {results : List (String × SessionResult)}
    (h : Remembers c table D d.registry d.aliases)
    (hasked : askedAll depth d (before ++ u :: after) ⊆ D)
    (hrun : checkAll depth d (before ++ u :: after) = some results) :
    ∃ d' e r, Remembers c table D d'.registry d'.aliases ∧ d'.consts = d.consts ∧
      u.asked depth d' ⊆ D ∧ u.check depth d' = some (e, r) ∧
      results[before.length]? = some (u.name, r) := by
  induction before generalizing d results with
  | nil =>
    obtain ⟨⟨e, r⟩, hcheck, hothers⟩ := Option.bind_eq_some_iff.mp hrun
    obtain ⟨rest, hrest, hreturn⟩ := Option.bind_eq_some_iff.mp hothers
    obtain rfl := Option.some.inj hreturn
    exact ⟨d, e, r, h, rfl, (Set.union_subset_iff.mp hasked).1, hcheck, rfl⟩
  | cons first before ih =>
    obtain ⟨hfirst, hlater⟩ := Set.union_subset_iff.mp hasked
    obtain ⟨⟨e, r⟩, hcheck, hothers⟩ := Option.bind_eq_some_iff.mp hrun
    obtain ⟨rest, hrest, hreturn⟩ := Option.bind_eq_some_iff.mp hothers
    obtain rfl := Option.some.inj hreturn
    -- a unit that is compared with itself hands on what is right
    obtain ⟨-, he, hconsts⟩ := check_alike hlegible h h rfl hfirst hcheck hcheck
    obtain ⟨d', e', r', hd', hconsts', hasked', hcheck', hget⟩ :=
      ih he (fun q hq => hlater ⟨e, r, hcheck, hq⟩) hrest
    exact ⟨d', e', r', hd', hconsts'.trans hconsts, hasked', hcheck', hget⟩

end CodeUnit

/-- The questions about bounds that come up when a manifest is checked. -/
def Manifest.asked (depth : Nat) (m : Manifest) : Set Question :=
  CodeUnit.askedAll depth (Declarations.ofManifest m).1 m.units

/-- Before the first unit is checked, what is remembered is right. -/
theorem Declarations.remembers_ofManifest (m : Manifest) (D : Set Question) :
    Remembers (ofManifest m).1.registry.catalog (ofManifest m).1.aliases.table D
      (ofManifest m).1.registry (ofManifest m).1.aliases := by
  obtain ⟨hcache, hsound⟩ := isFresh_ofManifest m
  refine ⟨rfl, fun e he => ?_, rfl, hsound⟩
  rw [hcache] at he
  cases he

end Generics
