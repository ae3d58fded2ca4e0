import Generics.Proofs.Session.Run

/-!
# The account of a session

A requirement of bounds is judged when it is made, or it waits until the session is finished. Either
way it gets one verdict, and a verdict that failed is recorded as one diagnostic. The invariant says
which requirements wait, so that it also holds while they are settled one after the other: each
requirement that was made has a verdict or waits, and each diagnostic belongs to a failed verdict or
was told to whoever caused it.

The type in a verdict is the required type as far as it was inferred at that time. Inference goes on
after that, so required types and judged types are compared as far as they are inferred by now.

## Main results

* `Session.handle_accounts` and `Session.handleAll_accounts`: the account is kept by every event and
  along every run;
* `Session.finish_settles`: after a session is finished every requirement has its verdict, and
  finishing again adds nothing.
-/

namespace Generics

/-- What the verdict is about. -/
def Verdict.obligation (v : Verdict) : Obligation := ⟨v.origin, v.type, v.bounds⟩

/-- The diagnostic of a verdict that failed. -/
def Verdict.diagnostic? (v : Verdict) : Option Diagnostic :=
  match v.outcome with
  | .ok () => none
  | .error e => some ⟨v.origin, .coded e⟩

namespace Session

/-- What happens to a session: a request, a problem that is reported to it, or a change of the
declarations, which others share. -/
inductive Event where
  | request (r : Request)
  | report (origin : Origin) (problem : Problem)
  | declare (registry : Registry) (aliases : Aliases)

/-- The bounds that an event requires. -/
def Event.required : Event → List Obligation
  | .request (.require _ origin t bounds) => [⟨origin, t, bounds⟩]
  | _ => []

/-- The diagnostic of an outcome. -/
def failure {α : Type} : Except Diagnostic α → List Diagnostic
  | .ok _ => []
  | .error d => [d]

/-- The session after an event, if there is an answer. -/
def handle (s : Session) : Event → Option Session
  | .request r => s.serve r
  | .report origin problem => some (s.report origin problem).1
  | .declare registry aliases => some { s with registry, aliases }

/-- The diagnostics that events other than requirements of bounds are answered with. -/
def told (s : Session) : Event → List Diagnostic
  | .request (.annotate origin text) => failure (s.annotate origin text).2
  | .request (.unify origin a b) => failure (s.unify origin a b).2
  | .request (.project depth origin capability t name) =>
    (s.project depth origin capability t name).elim [] fun answer => failure answer.2
  | .request (.checkSignature origin sig params constraints) =>
    failure (s.checkSignature origin sig params constraints).2
  | .request (.instantiate origin item args) => failure (s.instantiate origin item args).2
  | .report origin problem => [(s.report origin problem).2]
  | _ => []

/-- The session after events in order, with the diagnostics that were told. -/
def handleAll (s : Session) : List Event → Option (Session × List Diagnostic)
  | [] => some (s, [])
  | e :: es => do
    let next ← s.handle e
    let (last, later) ← next.handleAll es
    return (last, s.told e ++ later)

/-- The obligation with its type as far as it is inferred. -/
def resolve (s : Session) (o : Obligation) : Obligation := { o with type := s.apply o.type }

/-! ## Events that require no bounds -/

/-- From one session to another, types may be inferred further and diagnostics are recorded, but no
verdict is given and no requirement is put off. -/
structure Records (s s' : Session) (diagnostics : List Diagnostic) : Prop where
  grows : s.subst.Grows s'.subst
  verdicts : s'.verdicts = s.verdicts
  deferred : s'.deferred = s.deferred
  recorded : (s'.errors ++ s'.failures).Perm (s.errors ++ s.failures ++ diagnostics)

/-- What leaves verdicts, requirements and diagnostics alone records nothing. -/
theorem records_nothing {s s' : Session} (hgrows : s.subst.Grows s'.subst)
    (hverdicts : s'.verdicts = s.verdicts) (hdeferred : s'.deferred = s.deferred)
    (herrors : s'.errors = s.errors) (hfailures : s'.failures = s.failures) : s.Records s' [] :=
  ⟨hgrows, hverdicts, hdeferred, by rw [herrors, hfailures, List.append_nil]⟩

/-- What is recorded first and then is recorded together, in this order. -/
theorem Records.trans {s s' s'' : Session} {ds ds' : List Diagnostic} (h : s.Records s' ds)
    (h' : s'.Records s'' ds') : s.Records s'' (ds ++ ds') where
  grows := h.grows.trans h'.grows
  verdicts := h'.verdicts.trans h.verdicts
  deferred := h'.deferred.trans h.deferred
  recorded := by
    rw [← List.append_assoc]
    exact h'.recorded.trans (h.recorded.append_right ds')

section

variable (s : Session)

/-- What is reported, at its origin. -/
theorem report_diagnostic (origin : Origin) (problem : Problem) :
    (s.report origin problem).2 = ⟨origin, problem⟩ := by
  unfold report
  by_cases hcoded : problem.isCoded = true
  · rw [if_pos hcoded]
  · rw [if_neg hcoded]

/-- A report records its diagnostic. -/
theorem records_report (origin : Origin) (problem : Problem) :
    s.Records (s.report origin problem).1 [⟨origin, problem⟩] := by
  unfold report
  by_cases hcoded : problem.isCoded = true
  · rw [if_pos hcoded]
    refine ⟨.refl s.subst, rfl, rfl, ?_⟩
    -- the new error stands before the failures
    show ((s.errors ++ [_]) ++ s.failures).Perm _
    rw [List.append_assoc, List.append_assoc]
    exact List.perm_append_comm.append_left _
  · rw [if_neg hcoded]
    exact ⟨.refl s.subst, rfl, rfl, by rw [List.append_assoc]⟩

/-- A request that fails records why. -/
theorem Records.conclude {α : Type} {s s' : Session} (h : s.Records s' []) (origin : Origin)
    (outcome : Except Error α) :
    s.Records (s'.conclude origin outcome).1 (failure (s'.conclude origin outcome).2) := by
  cases outcome with
  | ok a => exact h
  | error e => exact h.trans (s'.records_report origin (.coded e))

/-- An annotation records at most why it fails. -/
theorem records_annotate (origin : Origin) (text : String) :
    s.Records (s.annotate origin text).1 (failure (s.annotate origin text).2) := by
  unfold annotate
  simp only
  split
  · refine Records.conclude ?_ origin _
    exact records_nothing (.refl s.subst) rfl rfl rfl rfl
  · exact records_nothing (.refl s.subst) rfl rfl rfl rfl

/-- A unification records at most why it fails. -/
theorem records_unify (origin : Origin) (a b : Ty) :
    s.Records (s.unify origin a b).1 (failure (s.unify origin a b).2) := by
  have hnext : s.Records { s with subst := (s.subst.unify a b).1 } [] :=
    records_nothing (Subst.grows_unify s.subst a b) rfl rfl rfl rfl
  exact hnext.conclude origin (s.subst.unify a b).2

/-- A signature records at most why it fails. -/
theorem records_checkSignature (origin : Origin) (sig : Signature) (params : List RegionParam)
    (constraints : List RegionConstraint) :
    s.Records (s.checkSignature origin sig params constraints).1
      (failure (s.checkSignature origin sig params constraints).2) := by
  unfold checkSignature
  split
  · refine Records.conclude ?_ origin _
    exact records_nothing (.refl s.subst) rfl rfl rfl rfl
  · exact records_nothing (.refl s.subst) rfl rfl rfl rfl

/-- An instance records at most why it fails. -/
theorem records_instantiate (origin : Origin) (item : Const.Context) (args : List ConstExpr) :
    s.Records (s.instantiate origin item args).1 (failure (s.instantiate origin item args).2) := by
  unfold instantiate
  simp only
  split
  · refine Records.conclude ?_ origin _
    exact records_nothing (.refl s.subst) rfl rfl rfl rfl
  · exact records_nothing (.refl s.subst) rfl rfl rfl rfl

end

/-- A projection records at most why it fails. -/
theorem records_project {s s' : Session} {depth : Nat} {origin : Origin} {capability : String}
    {t : Ty} {name : String} {outcome : Except Diagnostic Ty}
    (h : s.project depth origin capability t name = some (s', outcome)) :
    s.Records s' (failure outcome) := by
  unfold project at h
  obtain ⟨⟨registry, projected⟩, -, hconclude⟩ := Option.bind_eq_some_iff.mp h
  have hnext : s.Records { s with registry } [] := records_nothing (.refl s.subst) rfl rfl rfl rfl
  have hrecords := hnext.conclude origin projected
  rwa [Option.some.inj hconclude] at hrecords

/-! ## Requirements and their verdicts -/

/-- What a session knows of the bounds that were required, of which some may be waiting, and of the
diagnostics that were told. -/
structure Accounts (s : Session) (waiting required : List Obligation) (others : List Diagnostic) :
    Prop where
  acyclic : s.subst.Acyclic
  /-- Each requirement has a verdict or waits. -/
  covered : ((s.verdicts.map Verdict.obligation ++ waiting).map s.resolve).Perm
    (required.map s.resolve)
  /-- No bounds hold of a type that is not fully inferred. -/
  inferred : ∀ v ∈ s.verdicts, v.passed = true → v.type.isGround = true
  /-- Each diagnostic belongs to a failed verdict or is one of the others. -/
  explained : (s.errors ++ s.failures).Perm (s.verdicts.filterMap Verdict.diagnostic? ++ others)

/-- A new session has nothing to account for. -/
theorem accounts_new (registry : Registry) (aliases : Aliases) :
    Accounts { registry, aliases } [] [] [] where
  acyclic := Subst.acyclic_empty
  covered := .nil
  inferred := nofun
  explained := .nil

section

variable {s : Session} {waiting required : List Obligation} {others : List Diagnostic}

/-- A requirement is resolved once and for all. -/
theorem resolve_resolve (hs : s.subst.Acyclic) (o : Obligation) :
    s.resolve (s.resolve o) = s.resolve o :=
  congrArg (Obligation.mk o.origin · o.bounds) (hs.apply_apply o.type)

/-- What was inferred of a type in the meantime is part of what is inferred of it by now. -/
theorem map_resolve_resolve {s' : Session} (hs : s.subst.Acyclic) (hgrows : s.subst.Grows s'.subst)
    (os : List Obligation) : (os.map s.resolve).map s'.resolve = os.map s'.resolve := by
  rw [List.map_map]
  refine List.map_congr_left fun o _ => ?_
  show Obligation.mk o.origin (s'.subst.apply (s.subst.apply o.type)) o.bounds = _
  rw [hgrows.apply_apply hs]
  rfl

/-- What a request records comes after the diagnostics that there were. -/
theorem Accounts.records (h : s.Accounts waiting required others) {s' : Session}
    {ds : List Diagnostic} (hrecords : s.Records s' ds) :
    s'.Accounts waiting required (others ++ ds) where
  acyclic := hrecords.grows.acyclic h.acyclic
  covered := by
    have hmapped := h.covered.map s'.resolve
    rw [map_resolve_resolve h.acyclic hrecords.grows, map_resolve_resolve h.acyclic hrecords.grows]
      at hmapped
    rw [hrecords.verdicts]
    exact hmapped
  inferred := by
    rw [hrecords.verdicts]
    exact h.inferred
  explained := by
    rw [hrecords.verdicts, ← List.append_assoc]
    exact hrecords.recorded.trans (h.explained.append_right ds)

/-- A requirement waits at first. -/
theorem Accounts.require (h : s.Accounts waiting required others) (o : Obligation) :
    s.Accounts (o :: waiting) (required ++ [o]) others where
  acyclic := h.acyclic
  covered := by
    have hfront : (s.verdicts.map Verdict.obligation ++ o :: waiting).Perm
        (o :: (s.verdicts.map Verdict.obligation ++ waiting)) := List.perm_middle
    have hlast : ((required ++ [o]).map s.resolve).Perm (s.resolve o :: required.map s.resolve) := by
      rw [List.map_append]
      exact List.perm_append_singleton _ _
    exact ((hfront.map s.resolve).trans (h.covered.cons _)).trans hlast.symm
  inferred := h.inferred
  explained := h.explained

/-- A requirement that gets its verdict no longer waits. -/
theorem Accounts.judge {o : Obligation} (h : s.Accounts (o :: waiting) required others)
    (registry : Registry) (v : Verdict) (hv : s.resolve v.obligation = s.resolve o)
    (hground : v.passed = true → v.type.isGround = true) :
    ({ s with registry, verdicts := s.verdicts ++ [v] }.conclude v.origin v.outcome).1.Accounts
      waiting required others := by
  let judged : Session := { s with registry, verdicts := s.verdicts ++ [v] }
  have hrecords : judged.Records (judged.conclude v.origin v.outcome).1 v.diagnostic?.toList := by
    have hconclude := Records.conclude (s := judged) (records_nothing (.refl _) rfl rfl rfl rfl)
      v.origin v.outcome
    obtain ⟨origin, type, bounds, outcome⟩ := v
    cases outcome <;> exact hconclude
  -- the verdict stands where the requirement was waiting
  have hcovered : (((s.verdicts ++ [v]).map Verdict.obligation ++ waiting).map s.resolve).Perm
      (required.map s.resolve) := by
    have hlist : ((s.verdicts ++ [v]).map Verdict.obligation ++ waiting).map s.resolve =
        (s.verdicts.map Verdict.obligation ++ o :: waiting).map s.resolve := by simp [hv]
    rw [hlist]
    exact h.covered
  have hmapped := hcovered.map (judged.conclude v.origin v.outcome).1.resolve
  rw [map_resolve_resolve h.acyclic hrecords.grows, map_resolve_resolve h.acyclic hrecords.grows]
    at hmapped
  refine ⟨hrecords.grows.acyclic h.acyclic, ?_, ?_, ?_⟩
  · rw [hrecords.verdicts]
    exact hmapped
  · rw [hrecords.verdicts]
    exact List.forall_mem_append.mpr ⟨h.inferred, by simpa using hground⟩
  · rw [hrecords.verdicts, List.filterMap_append, List.append_assoc]
    have hlast : [v].filterMap Verdict.diagnostic? = v.diagnostic?.toList := by
      cases hd : v.diagnostic? <;> simp [hd]
    rw [hlast]
    refine (hrecords.recorded.trans (h.explained.append_right _)).trans ?_
    show (s.verdicts.filterMap Verdict.diagnostic? ++ others ++ v.diagnostic?.toList).Perm _
    rw [List.append_assoc]
    exact List.perm_append_comm.append_left _

/-- The bounds are judged of a fully inferred type. -/
theorem Accounts.judge_eq_some {s' : Session} {depth : Nat} {o : Obligation}
    {outcome : Except Diagnostic Unit} (h : s.Accounts (o :: waiting) required others)
    (hground : (s.apply o.type).isGround = true)
    (hjudge : s.judge depth o.origin (s.apply o.type) o.bounds = some (s', outcome)) :
    s'.Accounts waiting required others ∧ s'.deferred = s.deferred := by
  unfold Session.judge at hjudge
  obtain ⟨⟨registry, verdict⟩, -, hconclude⟩ := Option.bind_eq_some_iff.mp hjudge
  obtain rfl := congrArg Prod.fst (Option.some.inj hconclude)
  refine ⟨h.judge registry ⟨o.origin, _, o.bounds, verdict⟩ (resolve_resolve h.acyclic o)
    fun _ => hground, ?_⟩
  exact (Records.conclude (s := { s with registry, verdicts := _ })
    (records_nothing (.refl _) rfl rfl rfl rfl) o.origin verdict).deferred

/-- When the requirements that wait are judged, none is left. -/
theorem Accounts.settle {s' : Session} {depth : Nat} (h : s.Accounts waiting required others)
    (hsettle : s.settle depth waiting = some s') : s'.Accounts [] required others := by
  induction waiting generalizing s with
  | nil =>
    obtain rfl := Option.some.inj hsettle
    exact h
  | cons o os ih =>
    rw [Session.settle] at hsettle
    by_cases hground : (s.apply o.type).isGround = true
    · rw [if_pos hground] at hsettle
      obtain ⟨⟨judged, outcome⟩, hjudge, hrest⟩ := Option.bind_eq_some_iff.mp hsettle
      exact ih (h.judge_eq_some hground hjudge).1 hrest
    · rw [if_neg hground] at hsettle
      refine ih (h.judge s.registry ⟨o.origin, _, o.bounds, .error _⟩ ?_ ?_) hsettle
      · exact resolve_resolve h.acyclic o
      · rintro ⟨⟩

/-- At the end no requirement waits, and the result says what was accounted for. -/
theorem Accounts.finish {s' : Session} {depth : Nat} {result : SessionResult}
    (h : s.Accounts s.deferred required others) (hfinish : s.finish depth = some (s', result)) :
    s'.Accounts s'.deferred required others ∧ s'.deferred = [] ∧ result = s'.result := by
  unfold Session.finish at hfinish
  obtain ⟨settled, hsettle, hreturn⟩ := Option.bind_eq_some_iff.mp hfinish
  obtain ⟨rfl, rfl⟩ := Prod.mk.inj (Option.some.inj hreturn)
  have hsettled := h.settle hsettle
  exact ⟨⟨hsettled.acyclic, hsettled.covered, hsettled.inferred, hsettled.explained⟩, rfl, rfl⟩

/-- A requirement is judged at once or waits. -/
theorem Accounts.require_eq_some {s' : Session} {depth : Nat} {o : Obligation}
    {outcome : Except Diagnostic Unit} (h : s.Accounts s.deferred required others)
    (hrequire : s.require depth o.origin o.type o.bounds = some (s', outcome)) :
    s'.Accounts s'.deferred (required ++ [o]) others := by
  unfold Session.require at hrequire
  by_cases hground : (s.apply o.type).isGround = true
  · rw [if_pos hground] at hrequire
    obtain ⟨haccounts, hdeferred⟩ := (h.require o).judge_eq_some hground hrequire
    rw [hdeferred]
    exact haccounts
  · rw [if_neg hground] at hrequire
    obtain rfl := congrArg Prod.fst (Option.some.inj hrequire)
    have hadded := h.require o
    have hback : (s.verdicts.map Verdict.obligation ++ (s.deferred ++ [o])).Perm
        (s.verdicts.map Verdict.obligation ++ o :: s.deferred) :=
      (List.perm_append_singleton o s.deferred).append_left _
    exact ⟨h.acyclic, (hback.map s.resolve).trans hadded.covered, h.inferred, h.explained⟩

/-- An event keeps the account. -/
theorem handle_accounts {s' : Session} {e : Event} (h : s.Accounts s.deferred required others)
    (hhandle : s.handle e = some s') :
    s'.Accounts s'.deferred (required ++ e.required) (others ++ s.told e) := by
  -- all events but a requirement and the end only record
  have hrecord {ds : List Diagnostic} (hrecords : s.Records s' ds) :
      s'.Accounts s'.deferred (required ++ []) (others ++ ds) := by
    rw [List.append_nil, hrecords.deferred]
    exact h.records hrecords
  rcases e with r | ⟨origin, problem⟩ | ⟨registry, aliases⟩
  · cases r with
    | annotate origin text =>
      obtain rfl := Option.some.inj hhandle
      exact hrecord (s.records_annotate origin text)
    | fresh =>
      obtain rfl := Option.some.inj hhandle
      exact hrecord (records_nothing (.refl s.subst) rfl rfl rfl rfl)
    | record origin name t =>
      obtain rfl := Option.some.inj hhandle
      exact hrecord (records_nothing (.refl s.subst) rfl rfl rfl rfl)
    | unify origin a b =>
      obtain rfl := Option.some.inj hhandle
      exact hrecord (s.records_unify origin a b)
    | require depth origin t bounds =>
      obtain ⟨⟨_, outcome⟩, hrequire, rfl⟩ := Option.map_eq_some_iff.mp hhandle
      show Accounts _ _ (required ++ [⟨origin, t, bounds⟩]) (others ++ [])
      rw [List.append_nil]
      exact h.require_eq_some (o := ⟨origin, t, bounds⟩) hrequire
    | project depth origin capability t name =>
      obtain ⟨⟨_, outcome⟩, hproject, rfl⟩ := Option.map_eq_some_iff.mp hhandle
      rw [told, hproject]
      exact hrecord (records_project hproject)
    | checkSignature origin sig params constraints =>
      obtain rfl := Option.some.inj hhandle
      exact hrecord (s.records_checkSignature origin sig params constraints)
    | instantiate origin item args =>
      obtain rfl := Option.some.inj hhandle
      exact hrecord (s.records_instantiate origin item args)
    | finish depth =>
      obtain ⟨⟨_, result⟩, hfinish, rfl⟩ := Option.map_eq_some_iff.mp hhandle
      show Accounts _ _ (required ++ []) (others ++ [])
      rw [List.append_nil, List.append_nil]
      exact (h.finish hfinish).1
  · obtain rfl := Option.some.inj hhandle
    rw [told, report_diagnostic]
    exact hrecord (s.records_report origin problem)
  · obtain rfl := Option.some.inj hhandle
    exact hrecord (records_nothing (.refl s.subst) rfl rfl rfl rfl)

/-- The account is kept along every run. -/
theorem handleAll_accounts {s' : Session} {events : List Event} {later : List Diagnostic}
    (h : s.Accounts s.deferred required others) (hrun : s.handleAll events = some (s', later)) :
    s'.Accounts s'.deferred (required ++ events.flatMap Event.required) (others ++ later) := by
  induction events generalizing s required others later with
  | nil =>
    obtain ⟨rfl, rfl⟩ := Prod.mk.inj (Option.some.inj hrun)
    rw [List.flatMap_nil, List.append_nil, List.append_nil]
    exact h
  | cons e es ih =>
    obtain ⟨next, hhandle, hrest⟩ := Option.bind_eq_some_iff.mp hrun
    obtain ⟨⟨last, rest⟩, hlast, hreturn⟩ := Option.bind_eq_some_iff.mp hrest
    obtain ⟨rfl, rfl⟩ := Prod.mk.inj (Option.some.inj hreturn)
    rw [List.flatMap_cons, ← List.append_assoc, ← List.append_assoc]
    exact ih (handle_accounts h hhandle) hlast

end

/-- A session without waiting requirements is finished already. -/
theorem finish_of_deferred_eq_nil {s : Session} (h : s.deferred = []) (depth : Nat) :
    s.finish depth = some (s, s.result) := by
  rw [finish, h, settle]
  show some ({ s with deferred := [] }, Session.result { s with deferred := [] }) = _
  rw [← h]

/-- When a session is finished, each requirement that was made in its run has one verdict, about its
type as far as it is inferred. Only fully inferred types pass. The diagnostics are those of failed
verdicts, one for each, and those that other events were answered with. Finishing the session once
more has the same result. -/
theorem finish_settles {registry : Registry} {aliases : Aliases} {events : List Event}
    {s s' : Session} {others : List Diagnostic} {depth : Nat} {result : SessionResult}
    (hrun : handleAll { registry, aliases } events = some (s, others))
    (hfinish : s.finish depth = some (s', result)) :
    (result.verdicts.map fun v => s'.resolve v.obligation).Perm
        ((events.flatMap Event.required).map s'.resolve) ∧
      (∀ v ∈ result.verdicts, v.passed = true → v.type.isGround = true) ∧
      (result.errors ++ result.failures).Perm
        (result.verdicts.filterMap Verdict.diagnostic? ++ others) ∧
      ∀ again, s'.finish again = some (s', result) := by
  have hstart := handleAll_accounts (accounts_new registry aliases) hrun
  obtain ⟨haccounts, hdeferred, rfl⟩ := hstart.finish hfinish
  refine ⟨?_, haccounts.inferred, haccounts.explained, finish_of_deferred_eq_nil hdeferred⟩
  have hcovered := haccounts.covered
  rw [hdeferred, List.append_nil, List.map_map] at hcovered
  exact hcovered

/-- Of three requirements the first waits until the session is finished for the first time, and then
fails because its type is still open. The second passes before that, and the third fails after it. -/
theorem finish_settles_of_waiting :
    let origin : Origin := { construct := "fn f" }
    let shown : Bound := { kind := .simple, capability := "Show" }
    let outlives : Bound := { kind := .region, region := ⟨"'a"⟩ }
    let events : List Event :=
      [.request .fresh, .request (.require 1 origin (.var 0) [shown]),
        .request (.require 1 origin (.prim "u8") [outlives]),
        .report origin (.plain "no such file"), .request (.finish 1),
        .request (.require 1 origin (.prim "u8") [shown])]
    ∃ s others s' result,
      handleAll { registry := {}, aliases := .empty } events = some (s, others) ∧
      s.finish 1 = some (s', result) ∧
      others = [⟨origin, .plain "no such file"⟩] ∧
      result.verdicts.map Verdict.passed = [true, false, false] ∧
      (result.verdicts.map fun v => s'.resolve v.obligation).Perm
        ([⟨origin, .var 0, [shown]⟩, ⟨origin, .prim "u8", [outlives]⟩,
          ⟨origin, .prim "u8", [shown]⟩].map s'.resolve) ∧
      (∀ v ∈ result.verdicts, v.passed = true → v.type.isGround = true) ∧
      (result.errors ++ result.failures).Perm
        (result.verdicts.filterMap Verdict.diagnostic? ++ others) ∧
      ∀ again, s'.finish again = some (s', result) := by
  intro origin shown outlives events
  -- the verdicts come from the run, and what they say of the session from the theorem
  have hanswers : ((handleAll { registry := {}, aliases := .empty } events).bind fun p =>
      (p.1.finish 1).map fun q => (p.2, q.2.verdicts.map Verdict.passed)) =
      some ([⟨origin, .plain "no such file"⟩], [true, false, false]) := by
    unfold events origin shown outlives
    cbv
  obtain ⟨⟨s, others⟩, hrun, hrest⟩ := Option.bind_eq_some_iff.mp hanswers
  obtain ⟨⟨s', result⟩, hfinish, heq⟩ := Option.map_eq_some_iff.mp hrest
  obtain ⟨hothers, hpassed⟩ := Prod.mk.inj heq
  exact ⟨s, others, s', result, hrun, hfinish, hothers, hpassed, finish_settles hrun hfinish⟩

end Session

end Generics
