import Generics.Proofs.Capability.Consistent
import Generics.Proofs.Session.Verdicts
import Generics.Proofs.Ty.Returns

/-!
# Where a requirement stands in a run

A requirement of bounds is judged at once if its type is fully inferred, and at the end of the run
otherwise. The verdict is the same either way: a type without variables is not inferred any further, so
at the end of the run the requirement would be judged of a type that is written alike, and a check of
it finds the verdict that is remembered.

So the verdicts of a run are those of its requirements under the last substitution, which depends on
the unifications alone. Requirements can be moved across them.

It is supposed that what the registry says to a question that comes up in the run does not depend on
what was asked before.

## Main results

* `Subst.withReturns_apply_of_isGround`: a type without variables stays the same, up to its return types,
  however much is inferred later;
* `Session.handle_judged` and `Session.handleAll_judged`: along a run, verdicts and waiting
  requirements are those of the requirements that were made;
* `Session.finish_judges_required`: verdicts do not depend on where their requirements stand in a run.
-/

namespace Generics

/-! ## Types without variables -/

/-- A type without variables is not inferred any further. -/
theorem Subst.withReturns_apply_of_isGround (s : Subst) {t : Ty} (h : t.isGround = true) :
    (s.apply t).withReturns = t.withReturns := by
  unfold apply
  split
  · rfl
  · have hvars : t.vars = [] := Ty.isGround_iff.mp h
    rw [← Ty.subst_var, ← Ty.subst_var, Ty.subst_subst]
    exact Ty.subst_congr fun v hv => by simp [hvars] at hv

/-! ## Judgements -/

/-- What a verdict says: whether a type satisfies bounds. The type is given with every return type
written out, and as it is printed. -/
structure Judgement where
  origin : Origin
  type : Ty
  printed : String
  bounds : List Bound
  passed : Bool

/-- What the verdict says. -/
def Verdict.judgement (v : Verdict) : Judgement :=
  ⟨v.origin, v.type.withReturns, v.type.render, v.bounds, v.passed⟩

/-- What a verdict on the requirement should say when inference is over: the type passes if it has no
variables and is accepted. -/
def Obligation.judgement (accepts : Ty → List Bound → Bool) (last : Subst) (o : Obligation) :
    Judgement :=
  let t := last.apply o.type
  ⟨o.origin, t.withReturns, t.render, o.bounds, t.isGround && accepts t o.bounds⟩

/-- A verdict passes if the check behind it does. -/
theorem Verdict.passed_eq_isOk (v : Verdict) : v.passed = v.outcome.isOk := by
  unfold passed
  cases v.outcome <;> rfl

namespace Session

/-- The event neither ends the session nor declares anything. -/
def Event.isInterim : Event → Bool
  | .request (.finish _) => false
  | .declare _ _ => false
  | _ => true

/-- The types that an event makes equal. -/
def Event.unified : Event → List (Ty × Ty)
  | .request (.unify _ a b) => [(a, b)]
  | _ => []

/-- What the registry is asked by an event, or at the end because of it, when this much is inferred. A
requirement is only asked of a type without variables. -/
def Event.inquiry? (s : Subst) : Event → Option Registry.Inquiry
  | .request (.require _ _ t bounds) =>
    if (s.apply t).isGround then some (.bounds (s.apply t) bounds) else none
  | .request (.project _ _ capability t name) => some (.projection capability (s.apply t) name)
  | _ => none

/-- What the registry may be asked by the events, anywhere between two substitutions. -/
def inquiries (first last : Subst) (events : List Event) : Set Registry.Inquiry :=
  {i | ∃ e ∈ events, ∃ between : Subst, first.Grows between ∧ between.Grows last ∧
    e.inquiry? between = some i}

/-! ## The registry along a run -/

section

variable (s : Session)

@[simp] theorem report_registry (origin : Origin) (problem : Problem) :
    (s.report origin problem).1.registry = s.registry := by
  unfold report
  simp only
  split <;> rfl

@[simp] theorem conclude_registry {α : Type} (origin : Origin) (outcome : Except Error α) :
    (s.conclude origin outcome).1.registry = s.registry := by
  cases outcome with
  | ok a => rfl
  | error e => exact report_registry s origin (.coded e)

/-- An annotation leaves the registry as it is. -/
theorem annotate_registry (origin : Origin) (text : String) :
    (s.annotate origin text).1.registry = s.registry := by
  unfold annotate
  simp only
  split <;> simp

/-- Inference leaves the registry as it is. -/
theorem unify_registry (origin : Origin) (a b : Ty) :
    (s.unify origin a b).1.registry = s.registry := by
  simp [unify]

/-- The check of a signature leaves the registry as it is. -/
theorem checkSignature_registry (origin : Origin) (sig : Signature) (params : List RegionParam)
    (constraints : List RegionConstraint) :
    (s.checkSignature origin sig params constraints).1.registry = s.registry := by
  unfold checkSignature
  split <;> simp

/-- An instance leaves the registry as it is. -/
theorem instantiate_registry (origin : Origin) (item : Const.Context) (args : List ConstExpr) :
    (s.instantiate origin item args).1.registry = s.registry := by
  unfold instantiate
  simp only
  split <;> simp

end

/-- A projection leaves the registry that its search for the associated type leaves. -/
theorem project_registry {s s' : Session} {depth : Nat} {origin : Origin} {capability : String}
    {t : Ty} {name : String} {outcome : Except Diagnostic Ty}
    (h : s.project depth origin capability t name = some (s', outcome)) :
    ∃ projected, s.registry.associatedType depth capability (s.apply t) name =
      some (s'.registry, projected) := by
  unfold project at h
  obtain ⟨⟨registry, projected⟩, hrun, hconclude⟩ := Option.bind_eq_some_iff.mp h
  obtain rfl := congrArg Prod.fst (Option.some.inj hconclude)
  exact ⟨projected, by simpa using hrun⟩

/-- What the check of bounds leaves behind. -/
theorem judge_eq_some {s s' : Session} {depth : Nat} {origin : Origin} {t : Ty}
    {bounds : List Bound} {outcome : Except Diagnostic Unit}
    (h : s.judge depth origin t bounds = some (s', outcome)) :
    ∃ verdict, s.registry.checkBounds depth t bounds = some (s'.registry, verdict) ∧
      s'.verdicts = s.verdicts ++ [⟨origin, t, bounds, verdict⟩] ∧ s'.deferred = s.deferred ∧
      s'.subst = s.subst := by
  have hsubst := judge_subst h
  unfold judge at h
  obtain ⟨⟨registry, verdict⟩, hrun, hconclude⟩ := Option.bind_eq_some_iff.mp h
  obtain rfl := congrArg Prod.fst (Option.some.inj hconclude)
  let judged : Session :=
    { s with registry, verdicts := s.verdicts ++ [⟨origin, t, bounds, verdict⟩] }
  have hrecords : judged.Records (judged.conclude origin verdict).1 _ :=
    Records.conclude (records_nothing (.refl _) rfl rfl rfl rfl) origin verdict
  exact ⟨verdict, by simpa using hrun, hrecords.verdicts, hrecords.deferred, hsubst⟩

/-! ## Judged requirements -/

section

variable {first last : Subst} {asked : Set Registry.Inquiry} {accepts : Ty → List Bound → Bool}
  {r₀ : Registry} {old : List Verdict}

/-- All that the event may ask between two substitutions is in the set. -/
def Event.AsksOf (first last : Subst) (asked : Set Registry.Inquiry) (e : Event) : Prop :=
  ∀ between : Subst, first.Grows between → between.Grows last →
    ∀ i, e.inquiry? between = some i → i ∈ asked

/-- The checks that the requirement may lead to between two substitutions are in the set. -/
def Inquired (first last : Subst) (asked : Set Registry.Inquiry) (o : Obligation) : Prop :=
  ∀ between : Subst, first.Grows between → between.Grows last →
    (between.apply o.type).isGround = true → .bounds (between.apply o.type) o.bounds ∈ asked

/-- On the way from `first` to `last`, the verdicts that were added to the `old` ones and those that
the waiting requirements should get are together those that all requirements should get. -/
structure Judged (first last : Subst) (asked : Set Registry.Inquiry)
    (accepts : Ty → List Bound → Bool) (r₀ : Registry) (old : List Verdict) (s : Session)
    (waiting required : List Obligation) : Prop where
  acyclic : s.subst.Acyclic
  before : first.Grows s.subst
  after : s.subst.Grows last
  registry : r₀.Asked asked s.registry
  inquired : ∀ o ∈ waiting, Inquired first last asked o
  judged : ∃ new, s.verdicts = old ++ new ∧
    (new.map Verdict.judgement ++ waiting.map (Obligation.judgement accepts last)).Perm
      (required.map (Obligation.judgement accepts last))

variable {s s' : Session} {waiting required : List Obligation}

/-- A verdict on a fully inferred type is the one that the requirement should get in the end. -/
theorem Judged.judgement_eq (h : Judged first last asked accepts r₀ old s waiting required)
    (hconsistent : r₀.Consistent asked accepts) {o : Obligation}
    (ho : Inquired first last asked o) {depth : Nat} {r' : Registry} {verdict : Except Error Unit}
    (hground : (s.apply o.type).isGround = true)
    (hrun : s.registry.checkBounds depth (s.apply o.type) o.bounds = some (r', verdict)) :
    Verdict.judgement ⟨o.origin, s.apply o.type, o.bounds, verdict⟩ = o.judgement accepts last := by
  have hlast : last.apply o.type = last.apply (s.apply o.type) := (h.after.apply_apply h.acyclic _).symm
  have hreturns : (last.apply o.type).withReturns = (s.apply o.type).withReturns := by
    rw [hlast]
    exact last.withReturns_apply_of_isGround hground
  have hrender : (last.apply o.type).render = (s.apply o.type).render := by
    rw [← Ty.render_withReturns, hreturns, Ty.render_withReturns]
  have hground' : (last.apply o.type).isGround = true := by
    rw [← Ty.isGround_withReturns, hreturns, Ty.isGround_withReturns]
    exact hground
  -- both forms of the type are asked about, so they have the same answer
  have hnow : .bounds (s.apply o.type) o.bounds ∈ asked := ho s.subst h.before h.after hground
  have hthen : .bounds (last.apply o.type) o.bounds ∈ asked :=
    ho last (h.before.trans h.after) (.refl last) hground'
  have haccepts : accepts (last.apply o.type) o.bounds = verdict.isOk := by
    rw [hconsistent.eq_of_render_eq h.registry hnow hthen hrender hrun]
    exact (hconsistent h.registry hnow hrun).symm
  simp only [Verdict.judgement, Obligation.judgement, Verdict.passed_eq_isOk, hreturns, hrender,
    hground', haccepts, Bool.true_and]

/-- A requirement waits at first. -/
theorem Judged.require (h : Judged first last asked accepts r₀ old s waiting required)
    {o : Obligation} (ho : Inquired first last asked o) :
    Judged first last asked accepts r₀ old s (o :: waiting) (required ++ [o]) := by
  obtain ⟨new, hverdicts, hperm⟩ := h.judged
  refine ⟨h.acyclic, h.before, h.after, h.registry, List.forall_mem_cons.mpr ⟨ho, h.inquired⟩, new,
    hverdicts, ?_⟩
  rw [List.map_append, List.map_cons]
  refine List.perm_middle.trans ((hperm.cons _).trans ?_)
  exact (List.perm_append_singleton _ _).symm

/-- A requirement that gets the verdict it should get no longer waits. -/
theorem Judged.settled {o : Obligation} {v : Verdict}
    (h : Judged first last asked accepts r₀ old s (o :: waiting) required)
    (hv : v.judgement = o.judgement accepts last) (hverdicts : s'.verdicts = s.verdicts ++ [v])
    (hsubst : s'.subst = s.subst) (hregistry : r₀.Asked asked s'.registry) :
    Judged first last asked accepts r₀ old s' waiting required := by
  obtain ⟨new, hnew, hperm⟩ := h.judged
  refine ⟨hsubst ▸ h.acyclic, hsubst ▸ h.before, hsubst ▸ h.after, hregistry,
    fun o ho => h.inquired o (List.mem_cons_of_mem _ ho), new ++ [v], ?_, ?_⟩
  · rw [hverdicts, hnew, List.append_assoc]
  · have hlist : (new ++ [v]).map Verdict.judgement ++
        waiting.map (Obligation.judgement accepts last) =
        new.map Verdict.judgement ++ (o :: waiting).map (Obligation.judgement accepts last) := by
      simp [hv]
    rw [hlist]
    exact hperm

/-- A waiting requirement whose type is ground is judged, and has then the verdict that it should
get. -/
theorem Judged.judge {o : Obligation} {depth : Nat} {outcome : Except Diagnostic Unit}
    (h : Judged first last asked accepts r₀ old s (o :: waiting) required)
    (hconsistent : r₀.Consistent asked accepts) (hground : (s.apply o.type).isGround = true)
    (hjudge : s.judge depth o.origin (s.apply o.type) o.bounds = some (s', outcome)) :
    Judged first last asked accepts r₀ old s' waiting required ∧ s'.deferred = s.deferred := by
  obtain ⟨verdict, hrun, hverdicts, hdeferred, hsubst⟩ := judge_eq_some hjudge
  have ho := h.inquired o List.mem_cons_self
  have hregistry : r₀.Asked asked s'.registry :=
    h.registry.bounds (ho s.subst h.before h.after hground) hrun
  exact ⟨h.settled (h.judgement_eq hconsistent ho hground hrun) hverdicts hsubst hregistry,
    hdeferred⟩

/-- Settling waiting requirements at the end gives them the verdicts they should get. -/
theorem Judged.settle {depth : Nat} (hconsistent : r₀.Consistent asked accepts)
    (h : Judged first last asked accepts r₀ old s waiting required) (hlast : s.subst = last)
    (hsettle : s.settle depth waiting = some s') :
    Judged first last asked accepts r₀ old s' [] required := by
  induction waiting generalizing s with
  | nil =>
    obtain rfl := Option.some.inj hsettle
    exact h
  | cons o os ih =>
    rw [Session.settle] at hsettle
    by_cases hground : (s.apply o.type).isGround = true
    · rw [if_pos hground] at hsettle
      obtain ⟨⟨judged, outcome⟩, hjudge, hrest⟩ := Option.bind_eq_some_iff.mp hsettle
      exact ih (h.judge hconsistent hground hjudge).1 ((judge_subst hjudge).trans hlast) hrest
    · rw [if_neg hground] at hsettle
      dsimp only at hsettle
      generalize Error.boundNotSatisfied _ _ _ = e at hsettle
      -- the type is still open in the end, and such a requirement should fail
      have hopen : (last.apply o.type).isGround = false := by
        rw [← hlast]
        exact Bool.eq_false_iff.mpr hground
      have hfails : Verdict.judgement ⟨o.origin, s.apply o.type, o.bounds, .error e⟩ =
          o.judgement accepts last := by
        simp [Verdict.judgement, Obligation.judgement, Verdict.passed, hopen, Session.apply, hlast]
      refine ih (h.settled hfails (records_report _ o.origin (.coded e)).verdicts ?_ ?_) ?_ hsettle
      · rw [report_subst]
      · rw [report_registry]
        exact h.registry
      · rw [report_subst]
        exact hlast

/-- An event that records at most keeps the judgements. -/
theorem Judged.records {ds : List Diagnostic}
    (h : Judged first last asked accepts r₀ old s waiting required) (hrecords : s.Records s' ds)
    (hafter : s'.subst.Grows last) (hregistry : r₀.Asked asked s'.registry) :
    Judged first last asked accepts r₀ old s' waiting required where
  acyclic := hrecords.grows.acyclic h.acyclic
  before := h.before.trans hrecords.grows
  after := hafter
  registry := hregistry
  inquired := h.inquired
  judged := by
    rw [hrecords.verdicts]
    exact h.judged

/-- A requirement that is made is judged or waits. -/
theorem Judged.require_eq_some {depth : Nat} {o : Obligation} {outcome : Except Diagnostic Unit}
    (hconsistent : r₀.Consistent asked accepts)
    (h : Judged first last asked accepts r₀ old s s.deferred required)
    (ho : Inquired first last asked o)
    (hrequire : s.require depth o.origin o.type o.bounds = some (s', outcome)) :
    Judged first last asked accepts r₀ old s' s'.deferred (required ++ [o]) := by
  have hadded := h.require ho
  unfold Session.require at hrequire
  by_cases hground : (s.apply o.type).isGround = true
  · rw [if_pos hground] at hrequire
    -- the requirement is judged at once
    obtain ⟨hjudged, hdeferred⟩ := hadded.judge hconsistent hground hrequire
    rw [hdeferred]
    exact hjudged
  · rw [if_neg hground] at hrequire
    -- the requirement waits behind the others
    obtain rfl := congrArg Prod.fst (Option.some.inj hrequire)
    obtain ⟨new, hverdicts, hperm⟩ := hadded.judged
    have hback : (s.deferred ++ [o]).Perm (o :: s.deferred) := List.perm_append_singleton o s.deferred
    exact ⟨h.acyclic, h.before, h.after, h.registry,
      fun x hx => hadded.inquired x (hback.mem_iff.mp hx), new, hverdicts,
      ((hback.map _).append_left _).trans hperm⟩

/-- What an interim event leaves of the judgements. -/
theorem handle_judged {e : Event} (hconsistent : r₀.Consistent asked accepts)
    (h : Judged first last asked accepts r₀ old s s.deferred required)
    (hinterim : e.isInterim = true) (hasks : e.AsksOf first last asked)
    (hhandle : s.handle e = some s') (hafter : s'.subst.Grows last) :
    Judged first last asked accepts r₀ old s' s'.deferred (required ++ e.required) := by
  -- all events but a requirement only record
  have hrecord {ds : List Diagnostic} (hrecords : s.Records s' ds)
      (hregistry : r₀.Asked asked s'.registry) :
      Judged first last asked accepts r₀ old s' s'.deferred (required ++ []) := by
    rw [List.append_nil, hrecords.deferred]
    exact h.records hrecords hafter hregistry
  have hsame (heq : s'.registry = s.registry) : r₀.Asked asked s'.registry := heq ▸ h.registry
  rcases e with r | ⟨origin, problem⟩ | ⟨registry, aliases⟩
  · cases r with
    | annotate origin text =>
      obtain rfl := Option.some.inj hhandle
      exact hrecord (s.records_annotate origin text) (hsame (s.annotate_registry origin text))
    | fresh =>
      obtain rfl := Option.some.inj hhandle
      exact hrecord (records_nothing (.refl s.subst) rfl rfl rfl rfl) (hsame rfl)
    | record origin name t =>
      obtain rfl := Option.some.inj hhandle
      exact hrecord (records_nothing (.refl s.subst) rfl rfl rfl rfl) (hsame rfl)
    | unify origin a b =>
      obtain rfl := Option.some.inj hhandle
      exact hrecord (s.records_unify origin a b) (hsame (s.unify_registry origin a b))
    | require depth origin t bounds =>
      obtain ⟨⟨_, outcome⟩, hrequire, rfl⟩ := Option.map_eq_some_iff.mp hhandle
      refine h.require_eq_some hconsistent (o := ⟨origin, t, bounds⟩) ?_ hrequire
      exact fun between hbefore hbetween hground =>
        hasks between hbefore hbetween _ (if_pos hground)
    | project depth origin capability t name =>
      obtain ⟨⟨_, outcome⟩, hproject, rfl⟩ := Option.map_eq_some_iff.mp hhandle
      obtain ⟨projected, hrun⟩ := project_registry hproject
      exact hrecord (records_project hproject)
        (h.registry.projection (hasks s.subst h.before h.after _ rfl) hrun)
    | checkSignature origin sig params constraints =>
      obtain rfl := Option.some.inj hhandle
      exact hrecord (s.records_checkSignature origin sig params constraints)
        (hsame (s.checkSignature_registry origin sig params constraints))
    | instantiate origin item args =>
      obtain rfl := Option.some.inj hhandle
      exact hrecord (s.records_instantiate origin item args)
        (hsame (s.instantiate_registry origin item args))
    | finish depth => cases hinterim
  · obtain rfl := Option.some.inj hhandle
    exact hrecord (s.records_report origin problem) (hsame (s.report_registry origin problem))
  · cases hinterim

/-- An event only adds bindings. -/
theorem handle_grows {e : Event} (h : s.handle e = some s') : s.subst.Grows s'.subst := by
  rcases e with r | ⟨origin, problem⟩ | ⟨registry, aliases⟩
  · exact serve_grows h
  · obtain rfl := Option.some.inj h
    exact (s.records_report origin problem).grows
  · obtain rfl := Option.some.inj h
    exact .refl s.subst

/-- A row of events only adds bindings. -/
theorem handleAll_grows {events : List Event} {told : List Diagnostic}
    (h : s.handleAll events = some (s', told)) : s.subst.Grows s'.subst := by
  induction events generalizing s told with
  | nil =>
    obtain ⟨rfl, -⟩ := Prod.mk.inj (Option.some.inj h)
    exact .refl s.subst
  | cons e es ih =>
    obtain ⟨next, hhandle, hrest⟩ := Option.bind_eq_some_iff.mp h
    obtain ⟨⟨_, rest⟩, hlast, hreturn⟩ := Option.bind_eq_some_iff.mp hrest
    obtain ⟨rfl, -⟩ := Prod.mk.inj (Option.some.inj hreturn)
    exact (handle_grows hhandle).trans (ih hlast)

/-- What interim events leave of the judgements. -/
theorem handleAll_judged {events : List Event} {told : List Diagnostic}
    (hconsistent : r₀.Consistent asked accepts)
    (h : Judged first last asked accepts r₀ old s s.deferred required)
    (hevents : ∀ e ∈ events, e.isInterim = true ∧ e.AsksOf first last asked)
    (hrun : s.handleAll events = some (s', told)) (hafter : s'.subst.Grows last) :
    Judged first last asked accepts r₀ old s' s'.deferred
      (required ++ events.flatMap Event.required) := by
  induction events generalizing s required told with
  | nil =>
    obtain ⟨rfl, -⟩ := Prod.mk.inj (Option.some.inj hrun)
    rw [List.flatMap_nil, List.append_nil]
    exact h
  | cons e es ih =>
    obtain ⟨next, hhandle, hrest⟩ := Option.bind_eq_some_iff.mp hrun
    obtain ⟨⟨_, rest⟩, hlater, hreturn⟩ := Option.bind_eq_some_iff.mp hrest
    obtain ⟨rfl, -⟩ := Prod.mk.inj (Option.some.inj hreturn)
    obtain ⟨⟨hinterim, hasks⟩, hes⟩ := List.forall_mem_cons.mp hevents
    have hnext := handle_judged hconsistent h hinterim hasks hhandle
      ((handleAll_grows hlater).trans hafter)
    rw [List.flatMap_cons, ← List.append_assoc]
    exact ih hnext hes hlater

end

/-! ## The last substitution -/

/-- What is inferred by making pairs of types equal, one after the other. -/
def inferred (s : Subst) (pairs : List (Ty × Ty)) : Subst :=
  pairs.foldl (fun s p => (s.unify p.1 p.2).1) s

/-- Of all events only unifications matter to what is inferred. -/
theorem handle_subst {s s' : Session} {e : Event} (h : s.handle e = some s') :
    s'.subst = inferred s.subst e.unified := by
  rcases e with r | ⟨origin, problem⟩ | ⟨registry, aliases⟩
  · have hserve : s.serve r = some s' := h
    cases r with
    | annotate origin text =>
      obtain rfl := Option.some.inj h
      exact annotate_subst s origin text
    | unify origin a b =>
      obtain rfl := Option.some.inj h
      exact unify_subst s origin a b
    | fresh =>
      obtain rfl := Option.some.inj h
      rfl
    | _ => exact (keeps_serve rfl hserve).subst
  · obtain rfl := Option.some.inj h
    exact report_subst s origin problem
  · obtain rfl := Option.some.inj h
    rfl

/-- The substitution after a run depends on its unifications alone. -/
theorem handleAll_subst {s s' : Session} {events : List Event} {told : List Diagnostic}
    (h : s.handleAll events = some (s', told)) :
    s'.subst = inferred s.subst (events.flatMap Event.unified) := by
  induction events generalizing s told with
  | nil =>
    obtain ⟨rfl, -⟩ := Prod.mk.inj (Option.some.inj h)
    rfl
  | cons e es ih =>
    obtain ⟨next, hhandle, hrest⟩ := Option.bind_eq_some_iff.mp h
    obtain ⟨⟨_, rest⟩, hlater, hreturn⟩ := Option.bind_eq_some_iff.mp hrest
    obtain ⟨rfl, -⟩ := Prod.mk.inj (Option.some.inj hreturn)
    rw [ih hlater, handle_subst hhandle, List.flatMap_cons, inferred, inferred, inferred,
      List.foldl_append]

/-! ## Placement -/

/-- The verdicts of a stretch of a run are those that its requirements should get when inference is
over. -/
theorem finish_judgements {s sₑ s' : Session} {events : List Event} {told : List Diagnostic}
    {depth : Nat} {result : SessionResult} {accepts : Ty → List Bound → Bool}
    (hacyclic : s.subst.Acyclic) (hidle : s.deferred = [])
    (hinterim : ∀ e ∈ events, e.isInterim = true) (hrun : s.handleAll events = some (sₑ, told))
    (hfinish : sₑ.finish depth = some (s', result))
    (hconsistent : s.registry.Consistent (inquiries s.subst s'.subst events) accepts) :
    ∃ verdicts, result.verdicts = s.verdicts ++ verdicts ∧
      (verdicts.map Verdict.judgement).Perm
        ((events.flatMap Event.required).map (Obligation.judgement accepts s'.subst)) := by
  have hlast : sₑ.subst = s'.subst := (finish_subst hfinish).symm
  have hgrows : s.subst.Grows s'.subst := hlast ▸ handleAll_grows hrun
  -- at the start nothing waits, and no verdict is new
  have hstart : Judged s.subst s'.subst (inquiries s.subst s'.subst events) accepts s.registry
      s.verdicts s s.deferred [] :=
    ⟨hacyclic, .refl _, hgrows, .start, by simp [hidle], [], by simp, by simp [hidle]⟩
  have hevents : ∀ e ∈ events, e.isInterim = true ∧
      e.AsksOf s.subst s'.subst (inquiries s.subst s'.subst events) := fun e he =>
    ⟨hinterim e he, fun between hbefore hafter i hi => ⟨e, he, between, hbefore, hafter, hi⟩⟩
  have hend := handleAll_judged hconsistent hstart hevents hrun (hlast ▸ .refl _)
  unfold finish at hfinish
  obtain ⟨settled, hsettle, hreturn⟩ := Option.bind_eq_some_iff.mp hfinish
  obtain ⟨rfl, rfl⟩ := Prod.mk.inj (Option.some.inj hreturn)
  obtain ⟨new, hverdicts, hperm⟩ := (hend.settle hconsistent hlast hsettle).judged
  exact ⟨new, hverdicts, by simpa using hperm⟩

/-- It does not matter when a requirement is made. In a run that ends with the end of the session, where
nothing is declared and whether a check passes is a function of type and bounds, each requirement gets
a verdict on its type under the last substitution, which passes if and only if that type has no
variables and is accepted. Any other order of the events in which the unifications stay in order infers
the same and gives the same verdicts. -/
theorem finish_judges_required {registry : Registry} {aliases : Aliases} {before events : List Event}
    {s sₑ s' : Session} {told told' : List Diagnostic} {depth : Nat} {result : SessionResult}
    {accepts : Ty → List Bound → Bool}
    (hbefore : handleAll { registry, aliases } before = some (s, told)) (hidle : s.deferred = [])
    (hinterim : ∀ e ∈ events, e.isInterim = true) (hrun : s.handleAll events = some (sₑ, told'))
    (hfinish : sₑ.finish depth = some (s', result))
    (hconsistent : s.registry.Consistent (inquiries s.subst s'.subst events) accepts) :
    ∃ verdicts, result.verdicts = s.verdicts ++ verdicts ∧
      (verdicts.map Verdict.judgement).Perm
        ((events.flatMap Event.required).map (Obligation.judgement accepts s'.subst)) ∧
      ∀ {moved : List Event} {mₑ m' : Session} {told'' : List Diagnostic} {depth' : Nat}
        {result' : SessionResult}, moved.Perm events →
        moved.flatMap Event.unified = events.flatMap Event.unified →
        s.handleAll moved = some (mₑ, told'') → mₑ.finish depth' = some (m', result') →
        m'.subst = s'.subst ∧ ∃ verdicts', result'.verdicts = s.verdicts ++ verdicts' ∧
          (verdicts'.map Verdict.judgement).Perm (verdicts.map Verdict.judgement) := by
  have hacyclic : s.subst.Acyclic := (handleAll_grows hbefore).acyclic Subst.acyclic_empty
  obtain ⟨verdicts, hverdicts, hperm⟩ :=
    finish_judgements hacyclic hidle hinterim hrun hfinish hconsistent
  refine ⟨verdicts, hverdicts, hperm, fun {moved mₑ m' _ _ _} hmoved hunified hrun' hfinish' => ?_⟩
  -- the same unifications in the same order give the same substitution
  have hsubst : m'.subst = s'.subst := by
    rw [finish_subst hfinish', handleAll_subst hrun', hunified, ← handleAll_subst hrun,
      finish_subst hfinish]
  -- what is asked on the way does not depend on the order of the events
  have hinquiries : inquiries s.subst m'.subst moved = inquiries s.subst s'.subst events := by
    simp only [inquiries, hsubst, hmoved.mem_iff]
  obtain ⟨verdicts', hverdicts', hperm'⟩ := finish_judgements hacyclic hidle
    (fun e he => hinterim e (hmoved.mem_iff.mp he)) hrun' hfinish' (hinquiries ▸ hconsistent)
  refine ⟨hsubst, verdicts', hverdicts', hperm'.trans ?_⟩
  rw [hsubst]
  exact ((hmoved.flatMap_right Event.required).map _).trans hperm.symm

/-- What is asked about a requirement whose type is `t` in the end is asked about `t`. -/
theorem eq_of_inquiry?_require {first between last : Subst} (hfirst : first.Acyclic)
    (hbefore : first.Grows between) (hafter : between.Grows last) {depth : Nat} {origin : Origin}
    {t : Ty} {bounds : List Bound} {i : Registry.Inquiry}
    (hi : Event.inquiry? between (.request (.require depth origin t bounds)) = some i) :
    ∃ u, i = .bounds u bounds ∧ u.withReturns = (last.apply t).withReturns ∧
      (last.apply t).isGround = true := by
  by_cases hground : (between.apply t).isGround = true
  · have hreturns : (last.apply t).withReturns = (between.apply t).withReturns := by
      rw [← hafter.apply_apply (hbefore.acyclic hfirst) t]
      exact last.withReturns_apply_of_isGround hground
    refine ⟨between.apply t, ?_, hreturns.symm, ?_⟩
    · exact (Option.some.inj ((if_pos hground).symm.trans hi)).symm
    · rw [← Ty.isGround_withReturns, hreturns, Ty.isGround_withReturns]
      exact hground
  · cases (if_neg hground).symm.trans hi

/-- Of three requirements one passes, one fails and one is never inferred. All of them wait for the end
of the session, or the first is made after the unification that makes it pass. -/
theorem finish_judges_required_of_moved :
    let origin : Origin := { construct := "fn f" }
    let shown : Bound := .simple "Show"
    let require (v : VarId) : Event := .request (.require 3 origin (.var v) [shown])
    let unify : Event :=
      .request (.unify origin (.tuple [.var 0, .var 1]) (.tuple [.prim "u8", .prim "bool"]))
    let events : List Event := [require 0, require 1, require 2, unify]
    let moved : List Event := [require 2, require 1, unify, require 0]
    let s : Session := { registry := ⟨Catalog.lists, []⟩, aliases := .empty }
    ∃ (sₑ s' mₑ m' : Session) (told told' : List Diagnostic) (result result' : SessionResult),
      s.handleAll events = some (sₑ, told) ∧ sₑ.finish 3 = some (s', result) ∧
      s.handleAll moved = some (mₑ, told') ∧ mₑ.finish 3 = some (m', result') ∧
      s.registry.Consistent (inquiries s.subst s'.subst events) (fun t _ => t = .prim "u8") ∧
      result.verdicts.map (fun v => (v.type.render, v.passed)) =
        [("u8", true), ("bool", false), ("?2", false)] ∧
      result'.verdicts.map (fun v => (v.type.render, v.passed)) =
        [("u8", true), ("?2", false), ("bool", false)] ∧
      (result'.verdicts.map Verdict.judgement).Perm (result.verdicts.map Verdict.judgement) := by
  intro origin shown require unify events moved s
  have hanswers : ((s.handleAll events).bind fun p => (p.1.finish 3).map fun q =>
      (q.1.subst.bindings, q.2.verdicts.map fun v => (v.type.render, v.passed))) =
      some ([(1, .prim "bool"), (0, .prim "u8")],
        [("u8", true), ("bool", false), ("?2", false)]) := by
    unfold events require unify s origin shown
    cbv
  have hanswers' : ((s.handleAll moved).bind fun p => (p.1.finish 3).map fun q =>
      q.2.verdicts.map fun v => (v.type.render, v.passed)) =
      some [("u8", true), ("?2", false), ("bool", false)] := by
    unfold moved require unify s origin shown
    cbv
  obtain ⟨⟨sₑ, told⟩, hrun, hrest⟩ := Option.bind_eq_some_iff.mp hanswers
  obtain ⟨⟨s', result⟩, hfinish, heq⟩ := Option.map_eq_some_iff.mp hrest
  obtain ⟨hbindings, hpassed⟩ := Prod.mk.inj heq
  obtain ⟨⟨mₑ, told'⟩, hrun', hrest'⟩ := Option.bind_eq_some_iff.mp hanswers'
  obtain ⟨⟨m', result'⟩, hfinish', hpassed'⟩ := Option.map_eq_some_iff.mp hrest'
  have hlast : s'.subst = ⟨[(1, .prim "bool"), (0, .prim "u8")]⟩ := congrArg Subst.mk hbindings
  -- only the two types that are inferred are asked about
  have hasked : ∀ i ∈ inquiries s.subst s'.subst events,
      i = .bounds (.prim "u8") [shown] ∨ i = .bounds (.prim "bool") [shown] := by
    rintro i ⟨e, he, between, hbefore, hafter, hi⟩
    have hrequire {v : VarId} (he : e = require v) := eq_of_inquiry?_require Subst.acyclic_empty
      hbefore hafter (he ▸ hi)
    rw [hlast] at hrequire
    simp only [events, List.mem_cons, List.not_mem_nil, or_false] at he
    rcases he with he | he | he | rfl
    · obtain ⟨u, rfl, hu, -⟩ := hrequire he
      exact .inl (congrArg (Registry.Inquiry.bounds · _) (Ty.eq_prim_of_withReturns_eq hu))
    · obtain ⟨u, rfl, hu, -⟩ := hrequire he
      exact .inr (congrArg (Registry.Inquiry.bounds · _) (Ty.eq_prim_of_withReturns_eq hu))
    · obtain ⟨-, -, -, hground⟩ := hrequire he
      cases hground
    · cases hi
  have hplain : Catalog.lists.Plain := by simp [Catalog.Plain, Catalog.lists]
  let questions : List Question := [⟨.prim "u8", [shown]⟩, ⟨.prim "bool", [shown]⟩]
  have hlegible : Legible {q | q ∈ questions} :=
    Registry.legible_of_key_injective (by decide +kernel)
  have harising : ∀ q ∈ questions, Catalog.lists.arising {q} ⊆ {q | q ∈ questions} :=
    fun q hq => hplain.arising_subset hq (by decide +kernel)
  have hholds {t : Ty} {passed : Bool} (ht : ⟨t, [shown]⟩ ∈ questions)
      (hcheck : (s.registry.checkBounds 3 t [shown]).map (fun p => p.2.isOk) = some passed) :
      passed = true ↔ Catalog.lists.Holds ⟨t, [shown]⟩ := by
    obtain ⟨⟨r', outcome⟩, hrun, rfl⟩ := Option.map_eq_some_iff.mp hcheck
    refine Registry.reachable_lists.isOk_checkBounds_iff ?_ hrun
    rw [Set.empty_union]
    exact hlegible.mono (harising _ ht)
  have hu8 : true = true ↔ Catalog.lists.Holds ⟨.prim "u8", [shown]⟩ := hholds (by decide) (by cbv)
  have hbool : false = true ↔ Catalog.lists.Holds ⟨.prim "bool", [shown]⟩ :=
    hholds (by decide) (by cbv)
  have hcache : s.registry.catalog.SoundCache {q | q ∈ questions} s.registry.cache := by
    intro e he
    cases he
  have hconsistent : s.registry.Consistent (inquiries s.subst s'.subst events)
      (fun t _ => t = .prim "u8") := by
    refine Registry.consistent_of_legible hlegible hcache ?_ ?_
    · intro t bounds hmem
      rcases hasked _ hmem with heq | heq
      · obtain ⟨rfl, rfl⟩ := Registry.Inquiry.bounds.inj heq
        exact ⟨harising _ (by decide), hu8⟩
      · obtain ⟨rfl, rfl⟩ := Registry.Inquiry.bounds.inj heq
        exact ⟨harising _ (by decide), hbool⟩
    · intro capability t name hmem
      rcases hasked _ hmem with heq | heq <;> cases heq
  have hinterim : ∀ e ∈ events, e.isInterim = true := by simp [events, require, unify, Event.isInterim]
  have hmoved : moved.Perm events :=
    (List.perm_append_singleton (require 0) [require 2, require 1, unify]).trans
      (.cons _ (.swap _ _ _))
  have hstart : s.handleAll [] = some (s, []) := rfl
  obtain ⟨verdicts, hverdicts, -, hsame⟩ :=
    finish_judges_required hstart rfl hinterim hrun hfinish hconsistent
  obtain ⟨-, verdicts', hverdicts', hperm⟩ := hsame hmoved rfl hrun' hfinish'
  refine ⟨sₑ, s', mₑ, m', told, told', result, result', hrun, hfinish, hrun', hfinish', hconsistent,
    hpassed, hpassed', ?_⟩
  rw [hverdicts, hverdicts']
  exact hperm

end Session

end Generics
