import Generics.Proofs.Subst.Solution
import Generics.Session.Basic

/-!
# Runs of a session

A run is a list of requests served one after the other. A request that checks bounds has no answer
when its depth is not enough, and then the run ends there.

Only unification touches what the session infers of types, and it only adds bindings. So the
substitution of a session grows along every run, and the solutions of a later substitution are among
those of an earlier one. Since the substitution solves itself, two types that were made equal once
have the same erasure ever after.

## Main results

* `Session.keeps_serve`: what requests other than annotations, fresh variables and unification leave
  alone;
* `serve_grows` and `serveAll_grows`: the substitution grows with every request and along every run;
* `unify_ok_persists`: a unification that succeeded holds at every later point of the run.
-/

namespace Generics

/-- A request to a session. -/
inductive Session.Request where
  | annotate (origin : Origin) (text : String)
  | fresh
  | record (origin : Origin) (name : String) (t : Ty)
  | unify (origin : Origin) (a b : Ty)
  | require (depth : Nat) (origin : Origin) (t : Ty) (bounds : List Bound)
  | project (depth : Nat) (origin : Origin) (capability : String) (t : Ty) (name : String)
  | checkSignature (origin : Origin) (sig : Signature) (params : List RegionParam)
      (constraints : List RegionConstraint)
  | instantiate (origin : Origin) (item : Const.Context) (args : List ConstExpr)
  | finish (depth : Nat)

namespace Session

/-- The session after a request, if the request has an answer. -/
def serve (s : Session) : Request → Option Session
  | .annotate origin text => some (s.annotate origin text).1
  | .fresh => some s.fresh.2
  | .record origin name t => some (s.record origin name t)
  | .unify origin a b => some (s.unify origin a b).1
  | .require depth origin t bounds => (s.require depth origin t bounds).map Prod.fst
  | .project depth origin capability t name =>
    (s.project depth origin capability t name).map Prod.fst
  | .checkSignature origin sig params constraints =>
    some (s.checkSignature origin sig params constraints).1
  | .instantiate origin item args => some (s.instantiate origin item args).1
  | .finish depth => (s.finish depth).map Prod.fst

/-- The session after requests served in order, if all of them have an answer. -/
def serveAll (s : Session) : List Request → Option Session
  | [] => some s
  | r :: rs => (s.serve r).bind fun s => s.serveAll rs

/-! ## Requests that infer nothing -/

/-- The second session is at the same point of inference as the first one: no type was inferred, no
variable issued and no alias expanded in between. -/
structure Keeps (s s' : Session) : Prop where
  subst : s'.subst = s.subst
  fresher : s'.fresher = s.fresher
  aliases : s'.aliases = s.aliases

/-- What is kept first and then is kept all along. -/
theorem Keeps.trans {s s' s'' : Session} (h : s.Keeps s') (h' : s'.Keeps s'') : s.Keeps s'' where
  subst := h'.subst.trans h.subst
  fresher := h'.fresher.trans h.fresher
  aliases := h'.aliases.trans h.aliases

section

variable (s : Session)

/-- A report infers nothing. -/
theorem keeps_report (origin : Origin) (problem : Problem) :
    s.Keeps (s.report origin problem).1 := by
  unfold report
  simp only
  split <;> exact ⟨rfl, rfl, rfl⟩

/-- The outcome of a request infers nothing further. -/
theorem keeps_conclude {α : Type} (origin : Origin) (outcome : Except Error α) :
    s.Keeps (s.conclude origin outcome).1 := by
  cases outcome with
  | ok a => exact ⟨rfl, rfl, rfl⟩
  | error e => exact keeps_report s origin (.coded e)

/-- Unification infers types and does nothing else. -/
theorem keeps_unify (origin : Origin) (a b : Ty) :
    ({ s with subst := (s.subst.unify a b).1 } : Session).Keeps (s.unify origin a b).1 :=
  keeps_conclude _ origin _

/-- Checking a signature infers nothing. -/
theorem keeps_checkSignature (origin : Origin) (sig : Signature) (params : List RegionParam)
    (constraints : List RegionConstraint) :
    s.Keeps (s.checkSignature origin sig params constraints).1 := by
  unfold checkSignature
  split
  · exact keeps_conclude s origin _
  · exact ⟨rfl, rfl, rfl⟩

/-- An instance infers nothing. -/
theorem keeps_instantiate (origin : Origin) (item : Const.Context) (args : List ConstExpr) :
    s.Keeps (s.instantiate origin item args).1 := by
  have hconsts : s.Keeps { s with consts := (evaluateAll s.consts args).1 } := ⟨rfl, rfl, rfl⟩
  unfold instantiate
  simp only
  split
  · exact hconsts.trans (keeps_conclude _ origin _)
  · exact ⟨rfl, rfl, rfl⟩

end

/-- Judging bounds infers nothing. -/
theorem keeps_judge {s s' : Session} {depth : Nat} {origin : Origin} {t : Ty} {bounds : List Bound}
    {outcome : Except Diagnostic Unit} (h : s.judge depth origin t bounds = some (s', outcome)) :
    s.Keeps s' := by
  unfold judge at h
  obtain ⟨⟨registry, verdict⟩, -, hconclude⟩ := Option.bind_eq_some_iff.mp h
  obtain rfl := congrArg Prod.fst (Option.some.inj hconclude)
  refine Keeps.trans ?_ (keeps_conclude _ origin verdict)
  exact ⟨rfl, rfl, rfl⟩

/-- Requiring bounds infers nothing. -/
theorem keeps_require {s s' : Session} {depth : Nat} {origin : Origin} {t : Ty}
    {bounds : List Bound} {outcome : Except Diagnostic Unit}
    (h : s.require depth origin t bounds = some (s', outcome)) : s.Keeps s' := by
  unfold require at h
  simp only at h
  split at h
  · exact keeps_judge h
  · obtain rfl := congrArg Prod.fst (Option.some.inj h)
    exact ⟨rfl, rfl, rfl⟩

/-- A projection infers nothing. -/
theorem keeps_project {s s' : Session} {depth : Nat} {origin : Origin} {capability : String}
    {t : Ty} {name : String} {outcome : Except Diagnostic Ty}
    (h : s.project depth origin capability t name = some (s', outcome)) : s.Keeps s' := by
  unfold project at h
  obtain ⟨⟨registry, projected⟩, -, hconclude⟩ := Option.bind_eq_some_iff.mp h
  obtain rfl := congrArg Prod.fst (Option.some.inj hconclude)
  refine Keeps.trans ?_ (keeps_conclude _ origin projected)
  exact ⟨rfl, rfl, rfl⟩

/-- Judging the requirements that wait infers nothing. -/
theorem keeps_settle {s s' : Session} {depth : Nat} {obligations : List Obligation}
    (h : s.settle depth obligations = some s') : s.Keeps s' := by
  induction obligations generalizing s with
  | nil =>
    obtain rfl := Option.some.inj h
    exact ⟨rfl, rfl, rfl⟩
  | cons o os ih =>
    rw [settle] at h
    simp only at h
    split at h
    · obtain ⟨⟨judged, verdict⟩, hjudge, hrest⟩ := Option.bind_eq_some_iff.mp h
      exact (keeps_judge hjudge).trans (ih hrest)
    · refine Keeps.trans ?_ ((keeps_report _ o.origin _).trans (ih h))
      exact ⟨rfl, rfl, rfl⟩

/-- The end of a session infers nothing. -/
theorem keeps_finish {s s' : Session} {depth : Nat} {result : SessionResult}
    (h : s.finish depth = some (s', result)) : s.Keeps s' := by
  unfold finish at h
  obtain ⟨settled, hsettle, hreturn⟩ := Option.bind_eq_some_iff.mp h
  obtain rfl := congrArg Prod.fst (Option.some.inj hreturn)
  exact (keeps_settle hsettle).trans ⟨rfl, rfl, rfl⟩

/-- The request neither reads an annotation nor asks for a fresh variable nor makes types equal. -/
def Request.isQuiet : Request → Bool
  | .annotate .. | .fresh | .unify .. => false
  | _ => true

/-- A quiet request infers nothing. -/
theorem keeps_serve {s s' : Session} {r : Request} (hr : r.isQuiet = true)
    (h : s.serve r = some s') : s.Keeps s' := by
  cases r with
  | annotate | fresh | unify => cases hr
  | record origin name t =>
    obtain rfl := Option.some.inj h
    exact ⟨rfl, rfl, rfl⟩
  | require depth origin t bounds =>
    obtain ⟨⟨_, outcome⟩, hrequire, rfl⟩ := Option.map_eq_some_iff.mp h
    exact keeps_require hrequire
  | project depth origin capability t name =>
    obtain ⟨⟨_, outcome⟩, hproject, rfl⟩ := Option.map_eq_some_iff.mp h
    exact keeps_project hproject
  | checkSignature origin sig params constraints =>
    obtain rfl := Option.some.inj h
    exact keeps_checkSignature s origin sig params constraints
  | instantiate origin item args =>
    obtain rfl := Option.some.inj h
    exact keeps_instantiate s origin item args
  | finish depth =>
    obtain ⟨⟨_, result⟩, hfinish, rfl⟩ := Option.map_eq_some_iff.mp h
    exact keeps_finish hfinish

/-! ## The substitution along a run -/

section

variable (s : Session)

@[simp] theorem report_subst (origin : Origin) (problem : Problem) :
    (s.report origin problem).1.subst = s.subst := (keeps_report s origin problem).subst

@[simp] theorem conclude_subst {α : Type} (origin : Origin) (outcome : Except Error α) :
    (s.conclude origin outcome).1.subst = s.subst := (keeps_conclude s origin outcome).subst

/-- An annotation binds no variable. -/
theorem annotate_subst (origin : Origin) (text : String) :
    (s.annotate origin text).1.subst = s.subst := by
  unfold annotate
  simp only
  split <;> simp

/-- A session unifies by its substitution. -/
theorem unify_subst (origin : Origin) (a b : Ty) :
    (s.unify origin a b).1.subst = (s.subst.unify a b).1 := (keeps_unify s origin a b).subst

end

/-- A request for equal types succeeds when unification does. -/
theorem unify_eq_ok {s s' : Session} {origin : Origin} {a b : Ty}
    (h : s.unify origin a b = (s', .ok ())) : s.subst.unify a b = (s'.subst, .ok ()) := by
  unfold unify at h
  generalize s.subst.unify a b = unified at h ⊢
  obtain ⟨subst, outcome⟩ := unified
  cases outcome with
  | ok =>
    obtain rfl := congrArg Prod.fst h
    rfl
  | error e => cases h

/-- Judging bounds binds no variable. -/
theorem judge_subst {s s' : Session} {depth : Nat} {origin : Origin} {t : Ty} {bounds : List Bound}
    {outcome : Except Diagnostic Unit} (h : s.judge depth origin t bounds = some (s', outcome)) :
    s'.subst = s.subst := (keeps_judge h).subst

/-- The end of a session binds no variable. -/
theorem finish_subst {s s' : Session} {depth : Nat} {result : SessionResult}
    (h : s.finish depth = some (s', result)) : s'.subst = s.subst := (keeps_finish h).subst

/-- What one request does to the substitution: it adds bindings, or leaves it alone. -/
theorem serve_grows {s s' : Session} {r : Request} (h : s.serve r = some s') :
    s.subst.Grows s'.subst := by
  -- all requests but unification leave the substitution alone
  have hsame (heq : s'.subst = s.subst) : s.subst.Grows s'.subst := heq ▸ .refl s.subst
  cases r with
  | annotate origin text =>
    obtain rfl := Option.some.inj h
    exact hsame (annotate_subst s origin text)
  | fresh =>
    obtain rfl := Option.some.inj h
    exact hsame rfl
  | unify origin a b =>
    obtain rfl := Option.some.inj h
    rw [unify_subst]
    exact Subst.grows_unify s.subst a b
  | _ => exact hsame (keeps_serve rfl h).subst

/-- The substitution of a session grows along a run. -/
theorem serveAll_grows {s s' : Session} {requests : List Request}
    (h : s.serveAll requests = some s') : s.subst.Grows s'.subst := by
  induction requests generalizing s with
  | nil =>
    obtain rfl := Option.some.inj h
    exact .refl s.subst
  | cons r rs ih =>
    obtain ⟨served, hserve, hrest⟩ := Option.bind_eq_some_iff.mp h
    exact (serve_grows hserve).trans (ih hrest)

/-- Two types that a request made equal are equal at every later point of the run, whatever requests
succeeded or failed in between. -/
theorem unify_ok_persists {registry : Registry} {aliases : Aliases} {before after : List Request}
    {s₁ s₂ s₃ : Session} {origin : Origin} {a b : Ty}
    (hbefore : serveAll { registry, aliases } before = some s₁)
    (hunify : s₁.unify origin a b = (s₂, .ok ()))
    (hafter : s₂.serveAll after = some s₃) :
    (s₃.apply a).erase = (s₃.apply b).erase := by
  have hs₁ : s₁.subst.Acyclic := (serveAll_grows hbefore).acyclic Subst.acyclic_empty
  have hok : s₁.subst.unify a b = (s₂.subst, .ok ()) := unify_eq_ok hunify
  have hs₂ : s₂.subst.Acyclic := (Subst.grows_of_unify hok).acyclic hs₁
  have hs₃ : s₃.subst.Acyclic := (serveAll_grows hafter).acyclic hs₂
  -- the last substitution solves itself, and so everything it grew from
  have hsolves : s₂.subst.Solves s₃.subst.image := (serveAll_grows hafter).solves hs₃.solves_image
  have hvalue := ((hs₁.solves_unify_iff hok _).mp hsolves).2
  rwa [hs₃.valueAt_image, hs₃.valueAt_image] at hvalue

/-- After `?0` and `&'a ?1` are made equal, a request binds `?1` and then fails. -/
theorem unify_ok_persists_of_failure :
    let origin : Origin := { construct := "fn f" }
    let s₁ : Session := { registry := {}, aliases := .empty, fresher := ⟨2⟩ }
    let s₂ : Session := { s₁ with subst := ⟨[(0, .ref ⟨"'a"⟩ false (.var 1))]⟩ }
    let s₃ : Session :=
      { s₁ with
        subst := ⟨[(1, .prim "bool"), (0, .ref ⟨"'a"⟩ false (.var 1))]⟩
        errors :=
          [⟨origin, .coded (.typeMismatch "(bool, u8)" "(bool, i32)" "'u8' is not 'i32'")⟩] }
    serveAll { registry := {}, aliases := .empty } [.fresh, .fresh] = some s₁ ∧
      s₁.unify origin (.var 0) (.ref ⟨"'a"⟩ false (.var 1)) = (s₂, .ok ()) ∧
      s₂.serveAll [.unify origin (.tuple [.var 1, .prim "u8"]) (.tuple [.prim "bool", .prim "i32"]),
        .finish 1] = some s₃ ∧
      (s₃.apply (.var 0)).erase = (s₃.apply (.ref ⟨"'a"⟩ false (.var 1))).erase := by
  intro origin s₁ s₂ s₃
  have hbefore : serveAll { registry := {}, aliases := .empty } [.fresh, .fresh] = some s₁ := rfl
  have hunify : s₁.unify origin (.var 0) (.ref ⟨"'a"⟩ false (.var 1)) = (s₂, .ok ()) := by
    unfold s₂ s₁ origin
    cbv
  have hs₂ : s₂.subst.Acyclic :=
    (Subst.grows_of_unify (unify_eq_ok hunify)).acyclic Subst.acyclic_empty
  -- `?1` is bound to `bool` before the second elements are found to differ
  have hfails : s₂.subst.unify (.tuple [.var 1, .prim "u8"]) (.tuple [.prim "bool", .prim "i32"])
      = (s₃.subst, .error (.typeMismatch "(bool, u8)" "(bool, i32)" "'u8' is not 'i32'")) := by
    rw [hs₂.unify_eq]
    unfold s₃ s₂ s₁
    cbv
  have hserve : s₂.serve
      (.unify origin (.tuple [.var 1, .prim "u8"]) (.tuple [.prim "bool", .prim "i32"]))
      = some s₃ := by
    rw [serve, unify, hfails]
    rfl
  have hfinish : s₃.serve (.finish 1) = some s₃ := rfl
  have hafter : s₂.serveAll
      [.unify origin (.tuple [.var 1, .prim "u8"]) (.tuple [.prim "bool", .prim "i32"]),
        .finish 1] = some s₃ := by
    rw [serveAll, hserve, Option.bind_some, serveAll, hfinish]
    rfl
  exact ⟨hbefore, hunify, hafter, unify_ok_persists hbefore hunify hafter⟩

end Session

end Generics
