import Generics.Proofs.Region.Reachable
import Mathlib.Data.List.Induction

/-!
# Variances that are asked for

The variance of a region says on which sides of the recorded outlives relations the region stands. An
answer is remembered until constraints are added or region parameters are declared. A declaration that
fails forgets nothing, although it has recorded the parameters before the one at fault. So an answer
is that of the relations recorded when the region was first asked for, and it is out of date if failed
declarations have put the region on another side since then.

## Main results

* `RegionSolver.Relates`, `RegionSolver.Classifies`: the recorded relations, and the variance that they
  give a region;
* `RegionSolver.Use.handle_recalls` and `RegionSolver.run_recalls`: what is remembered of a region was
  worked out when it was first asked for;
* `RegionSolver.variance_run`: which answers are up to date, whatever a solver was used for;
* `RegionSolver.variance_out_of_date`: an answer that a failed declaration has left behind.
-/

namespace Generics.RegionSolver

variable {sv : RegionSolver} {s : Subst} {r : Region}

/-! ## Recorded relations -/

/-- The recorded bounds and constraints say that the first region outlives the second. -/
inductive Relates (sv : RegionSolver) (s : Subst) : Region → Region → Prop
  | bound {p : RegionParam} {b : Region} (hp : p ∈ sv.params) (hb : b ∈ p.bounds) :
      Relates sv s p.name b
  | outlives {a b : Region} (h : .outlives a b ∈ sv.constraints) : Relates sv s a b
  | equal {a b : Region} (h : .equal a b ∈ sv.constraints) : Relates sv s a b
  | equalBack {a b : Region} (h : .equal a b ∈ sv.constraints) : Relates sv s b a
  | type {t : Ty} {a b : Region} (h : .typeOutlives t b ∈ sv.constraints)
      (ha : a ∈ (s.apply t).regions) : Relates sv s a b

/-- The variance of a region that stands on the longer side of a relation only, on the shorter side
only, or on both or neither. -/
structure Classifies (R : Region → Region → Prop) (r : Region) (v : Variance) : Prop where
  co : v = .co ↔ (∃ x, R r x) ∧ ¬∃ x, R x r
  contra : v = .contra ↔ (∃ x, R x r) ∧ ¬∃ x, R r x
  inv : v = .inv ↔ ((∃ x, R r x) ↔ ∃ x, R x r)

/-- The recorded relations as a list. -/
def recorded (sv : RegionSolver) (s : Subst) : List (Region × Region) :=
  RegionParam.edges sv.params ++ sv.constraints.flatMap (relations s)

theorem mem_recorded_iff {a b : Region} : (a, b) ∈ sv.recorded s ↔ sv.Relates s a b := by
  constructor
  · intro h
    rcases List.mem_append.mp h with h | h
    · obtain ⟨p, hp, h⟩ := List.mem_flatMap.mp h
      obtain ⟨b', hb, heq⟩ := List.mem_map.mp h
      obtain ⟨rfl, rfl⟩ := Prod.mk.inj heq
      exact .bound hp hb
    · obtain ⟨c, hc, h⟩ := List.mem_flatMap.mp h
      cases c with
      | outlives longer shorter =>
        obtain ⟨rfl, rfl⟩ := Prod.mk.inj (List.mem_singleton.mp h)
        exact .outlives hc
      | equal x y =>
        simp only [relations, List.mem_cons, List.not_mem_nil, or_false, Prod.mk.injEq] at h
        rcases h with ⟨rfl, rfl⟩ | ⟨rfl, rfl⟩
        · exact .equal hc
        · exact .equalBack hc
      | typeOutlives type region =>
        obtain ⟨x, hx, heq⟩ := List.mem_map.mp h
        obtain ⟨rfl, rfl⟩ := Prod.mk.inj heq
        exact .type hc hx
  · intro h
    -- a constraint brings in the pairs that `relations` lists for it
    have hmem {c : RegionConstraint} (hc : c ∈ sv.constraints) (h : (a, b) ∈ relations s c) :
        (a, b) ∈ sv.recorded s :=
      List.mem_append_right _ (List.mem_flatMap.mpr ⟨c, hc, h⟩)
    cases h with
    | @bound p b hp hb =>
      exact List.mem_append_left _
        (List.mem_flatMap.mpr ⟨p, hp, List.mem_map.mpr ⟨b, hb, rfl⟩⟩)
    | outlives hc => exact hmem hc (List.mem_singleton_self _)
    | equal hc => exact hmem hc List.mem_cons_self
    | equalBack hc => exact hmem hc (List.mem_cons_of_mem _ (List.mem_singleton_self _))
    | type hc ha => exact hmem hc (List.mem_map.mpr ⟨a, ha, rfl⟩)

/-- On the longer side of a relation a region is not contravariant, on the shorter side it is not
covariant. -/
theorem Standing.mark_eq (st : Standing) (e : Region × Region) :
    st.mark r e =
      ⟨st.variance.meet ⟨decide (e.2 ≠ r), decide (e.1 ≠ r)⟩, st.related || e.1 = r || e.2 = r⟩ := by
  obtain ⟨⟨co, contra⟩, related⟩ := st
  by_cases hlonger : e.1 = r <;> by_cases hshorter : e.2 = r <;>
    simp [mark, Variance.meet, Variance.flip, Variance.co, hlonger, hshorter]

/-- Only the sides matter on which a region stands in some relation. -/
theorem Standing.foldl_mark (st : Standing) (related : List (Region × Region)) :
    related.foldl (Standing.mark r) st =
      ⟨st.variance.meet ⟨!related.any fun e => e.2 = r, !related.any fun e => e.1 = r⟩,
        st.related || (related.any fun e => e.1 = r) || related.any fun e => e.2 = r⟩ := by
  induction related generalizing st with
  | nil => simp [Variance.meet]
  | cons e es ih =>
    rw [List.foldl_cons, ih, mark_eq, Variance.meet_assoc]
    congr 1
    · simp [Variance.meet]
    · simp only [List.any_cons]
      ac_rfl

/-- The variance of a region by the sides on which it stands. -/
theorem classify_eq (related : List (Region × Region)) (r : Region) :
    classify related r =
      let longer := related.any fun e => e.1 = r
      let shorter := related.any fun e => e.2 = r
      if longer || shorter then ⟨!shorter, !longer⟩ else .inv := by
  unfold classify
  rw [Standing.foldl_mark]
  simp only [Variance.bi_meet, Bool.false_or]

/-- A variance that is worked out is that of the recorded relations. -/
theorem classifies_classify (sv : RegionSolver) (s : Subst) (r : Region) :
    Classifies (sv.Relates s) r (classify (sv.recorded s) r) := by
  have hlonger : ((sv.recorded s).any fun e => e.1 = r) = true ↔ ∃ x, sv.Relates s r x := by
    simp only [List.any_eq_true, decide_eq_true_eq, Prod.exists, ← mem_recorded_iff]
    exact ⟨fun ⟨a, b, h, ha⟩ => ⟨b, ha ▸ h⟩, fun ⟨b, h⟩ => ⟨r, b, h, rfl⟩⟩
  have hshorter : ((sv.recorded s).any fun e => e.2 = r) = true ↔ ∃ x, sv.Relates s x r := by
    simp only [List.any_eq_true, decide_eq_true_eq, Prod.exists, ← mem_recorded_iff]
    exact ⟨fun ⟨a, b, h, hb⟩ => ⟨a, hb ▸ h⟩, fun ⟨a, h⟩ => ⟨a, r, h, rfl⟩⟩
  rw [classify_eq]
  generalize ((sv.recorded s).any fun e => e.1 = r) = longer at hlonger ⊢
  generalize ((sv.recorded s).any fun e => e.2 = r) = shorter at hshorter ⊢
  constructor <;> rw [← hlonger, ← hshorter] <;> cases longer <;> cases shorter <;> decide

/-! ## Solvers in use -/

/-- What is done to a solver. -/
inductive Event where
  | declare (params : List RegionParam)
  | fresh
  | add (cs : List RegionConstraint)
  | enter (t : Ty) (quantified : List Region)
  | elide (sig : Signature)
  | solve
  /-- The variance of a region is asked for. -/
  | variance (r : Region)

/-- The solver after an event. -/
def handle (sv : RegionSolver) (s : Subst) : Event → RegionSolver
  | .declare params => (sv.declare params).1
  | .fresh => sv.fresh.2
  | .add cs => sv.add cs
  | .enter t quantified => (sv.enter t quantified).2.2
  | .elide sig => (sv.elide sig).1
  | .solve => (sv.solve s).1
  | .variance r => (sv.variance s r).1

/-- The event is a declaration that fails. -/
def Event.fails (sv : RegionSolver) : Event → Bool
  | .declare params => !(sv.declare params).2.isOk
  | _ => false

/-- The event makes a solver forget variances: constraints are added, or parameters are declared
without failure. -/
def Event.forgets (sv : RegionSolver) : Event → Bool
  | .declare params => (sv.declare params).2.isOk
  | .add _ => true
  | _ => false

/-- The event asks for the variance of the region. -/
def Event.asks (r : Region) : Event → Bool
  | .variance q => q = r
  | _ => false

/-- A solver in use, with the solver that it was when a region was first asked for since variances
were last forgotten. -/
structure Use where
  solver : RegionSolver
  asked : Option RegionSolver := none

/-- The use of a solver after an event. -/
def Use.handle (s : Subst) (r : Region) (u : Use) (e : Event) : Use where
  solver := u.solver.handle s e
  asked :=
    if e.forgets u.solver then none
    else if e.asks r then some (u.asked.getD u.solver)
    else u.asked

/-- A new solver after events in order. -/
def run (s : Subst) (r : Region) (limit : Int) (events : List Event) : Use :=
  events.foldl (Use.handle s r) { solver := { limit } }

/-- Facts about runs are proved event by event, the last one last. -/
theorem run_concat (s : Subst) (r : Region) (limit : Int) (events : List Event) (e : Event) :
    run s r limit (events ++ [e]) = (run s r limit events).handle s r e :=
  List.foldl_concat ..

/-! ## What events change -/

theorem variances_accept (sv : RegionSolver) (params : List RegionParam) :
    (sv.accept params).1.variances = if (sv.accept params).2.isOk then [] else sv.variances := by
  induction params generalizing sv with
  | nil => rfl
  | cons p ps ih =>
    unfold accept
    split
    · rfl
    · exact ih _

/-- A declaration forgets all variances if it succeeds, and none if it fails. -/
theorem variances_declare (sv : RegionSolver) (params : List RegionParam) :
    (sv.declare params).1.variances = if (sv.declare params).2.isOk then [] else sv.variances :=
  variances_accept _ params

/-- Parameters and constraints are only ever added, and only by declarations and additions. -/
theorem handle_records (sv : RegionSolver) (s : Subst) (e : Event) :
    sv.params ⊆ (sv.handle s e).params ∧ sv.constraints ⊆ (sv.handle s e).constraints ∧
      (e.forgets sv = false → e.fails sv = false →
        (sv.handle s e).recorded s = sv.recorded s) := by
  cases e with
  | declare params =>
    obtain ⟨accepted, variances, -, hdeclare⟩ := exists_declare sv params
    refine ⟨?_, ?_, fun hforgets hfails => ?_⟩
    · simp only [handle, hdeclare]
      exact List.subset_append_left _ _
    · simp only [handle, hdeclare]
      exact List.Subset.refl _
    · -- it forgets or fails
      simp only [Event.forgets, Event.fails] at hforgets hfails
      rw [hforgets] at hfails
      cases hfails
  | fresh => exact ⟨List.Subset.refl _, List.Subset.refl _, fun _ _ => rfl⟩
  | add cs =>
    refine ⟨List.Subset.refl _, List.subset_append_left _ _, fun hforgets => ?_⟩
    cases hforgets
  | enter t quantified =>
    obtain ⟨placeholders, henter⟩ := exists_enter sv t quantified
    simp only [handle, henter]
    exact ⟨List.Subset.refl _, List.Subset.refl _, fun _ _ => rfl⟩
  | elide sig =>
    obtain ⟨filled, -, helide⟩ := exists_elide sv sig
    simp only [handle, helide]
    exact ⟨List.Subset.refl _, List.Subset.refl _, fun _ _ => rfl⟩
  | solve =>
    obtain ⟨resolution, hsolve⟩ := (grows_solve sv s).exists_eq
    simp only [handle, hsolve]
    exact ⟨List.Subset.refl _, List.Subset.refl _, fun _ _ => rfl⟩
  | variance q =>
    simp only [handle, RegionSolver.variance]
    split <;> exact ⟨List.Subset.refl _, List.Subset.refl _, fun _ _ => rfl⟩

theorem Relates.handle {a b : Region} (h : sv.Relates s a b) (e : Event) :
    (sv.handle s e).Relates s a b := by
  obtain ⟨hparams, hconstraints, -⟩ := handle_records sv s e
  cases h with
  | bound hp hb => exact .bound (hparams hp) hb
  | outlives h => exact .outlives (hconstraints h)
  | equal h => exact .equal (hconstraints h)
  | equalBack h => exact .equalBack (hconstraints h)
  | type h ha => exact .type (hconstraints h) ha

/-- The answer is the one that is remembered, or the one that is worked out now. -/
theorem variance_snd (sv : RegionSolver) (s : Subst) (r : Region) :
    (sv.variance s r).2 = (sv.variances.lookup r).getD (classify (sv.recorded s) r) := by
  unfold RegionSolver.variance
  cases sv.variances.lookup r <;> rfl

/-- An answer is remembered from then on, and asking for a region leaves what is remembered of others
alone. -/
theorem lookup_variances_variance (sv : RegionSolver) (s : Subst) (q r : Region) :
    (sv.variance s q).1.variances.lookup r =
      if q = r then some (sv.variance s r).2 else sv.variances.lookup r := by
  rw [variance_snd]
  unfold RegionSolver.variance
  by_cases hq : q = r
  · subst hq
    rw [if_pos rfl]
    cases hlookup : sv.variances.lookup q with
    | some v => exact hlookup
    | none => exact List.lookup_cons_self
  · rw [if_neg hq]
    cases sv.variances.lookup q with
    | some v => rfl
    | none => rw [List.lookup_cons, beq_false_of_ne (Ne.symm hq)]

/-- What is remembered of a region was worked out when it was first asked for. -/
def Use.Recalls (s : Subst) (r : Region) (u : Use) : Prop :=
  u.solver.variances.lookup r = u.asked.map fun past => classify (past.recorded s) r

theorem Use.handle_recalls {u : Use} (h : u.Recalls s r) (e : Event) :
    (u.handle s r e).Recalls s r := by
  have hkept (sv : RegionSolver) (hvariances : sv.variances = u.solver.variances) :
      sv.variances.lookup r = u.asked.map fun past => classify (past.recorded s) r := by
    rw [hvariances]
    exact h
  unfold Recalls handle
  cases e with
  | declare params =>
    have hvariances := variances_declare u.solver params
    by_cases hforgets : (Event.declare params).forgets u.solver = true
    · -- an accepted declaration forgets all that was worked out, and with it who asked
      rw [if_pos hforgets, RegionSolver.handle, hvariances.trans (if_pos hforgets)]
      rfl
    · rw [if_neg hforgets]
      exact hkept _ (hvariances.trans (if_neg hforgets))
  | fresh => exact h
  | add cs => rfl
  | enter t quantified =>
    obtain ⟨placeholders, henter⟩ := exists_enter u.solver t quantified
    exact hkept _ (by rw [RegionSolver.handle, henter])
  | elide sig =>
    obtain ⟨filled, -, helide⟩ := exists_elide u.solver sig
    exact hkept _ (by rw [RegionSolver.handle, helide]; rfl)
  | solve =>
    obtain ⟨resolution, hsolve⟩ := (grows_solve u.solver s).exists_eq
    exact hkept _ (by rw [RegionSolver.handle, hsolve])
  | variance q =>
    simp only [Event.forgets, Event.asks, RegionSolver.handle, lookup_variances_variance,
      decide_eq_true_eq, Bool.false_eq_true, if_false]
    split
    · -- only the first question since then is answered from the constraints of the moment
      rw [variance_snd, h]
      cases u.asked <;> rfl
    · exact h

theorem run_recalls (s : Subst) (r : Region) (limit : Int) (events : List Event) :
    (run s r limit events).Recalls s r := by
  induction events using List.reverseRecOn with
  | nil => rfl
  | append_singleton events e ih =>
    rw [run_concat]
    exact Use.handle_recalls ih e

/-! ## What was recorded when a region was first asked for -/

/-- The solver in which the answer for the region was worked out, or is to be worked out now. -/
def Use.past (u : Use) : RegionSolver := u.asked.getD u.solver

/-- An event that forgets variances, or the first one that asks for the region, leaves nothing behind
it to remember; any other keeps the solver of the first answer. -/
theorem Use.past_handle (u : Use) (s : Subst) (r : Region) (e : Event) :
    (u.handle s r e).past = u.solver.handle s e ∨
      e.forgets u.solver = false ∧ (u.handle s r e).past = u.past := by
  unfold past handle
  by_cases hforgets : e.forgets u.solver = true
  · exact .inl (by rw [if_pos hforgets]; rfl)
  · rw [if_neg hforgets]
    by_cases hasks : e.asks r = true
    · exact .inr ⟨Bool.not_eq_true _ ▸ hforgets, by rw [if_pos hasks]; rfl⟩
    · rw [if_neg hasks]
      cases u.asked with
      | none => exact .inl rfl
      | some past => exact .inr ⟨Bool.not_eq_true _ ▸ hforgets, rfl⟩

/-- What was recorded when the region was first asked for is still recorded. -/
theorem relates_of_past {limit : Int} {events : List Event} {a b : Region}
    (h : (run s r limit events).past.Relates s a b) : (run s r limit events).solver.Relates s a b := by
  induction events using List.reverseRecOn with
  | nil => exact h
  | append_singleton events e ih =>
    rw [run_concat] at h ⊢
    rcases (run s r limit events).past_handle s r e with hpast | ⟨-, hpast⟩
    · rwa [hpast] at h
    · rw [hpast] at h
      exact (ih h).handle e

/-- If no declaration fails, nothing is recorded after a region was first asked for without being
noticed. -/
theorem recorded_past {limit : Int} {events : List Event}
    (h : ∀ before e after, events = before ++ e :: after →
      e.fails (run s r limit before).solver = false) :
    (run s r limit events).past.recorded s = (run s r limit events).solver.recorded s := by
  induction events using List.reverseRecOn with
  | nil => rfl
  | append_singleton events e ih =>
    have hbefore := ih fun before e' after heq => h before e' (after ++ [e]) (by simp [heq])
    have hfails : e.fails (run s r limit events).solver = false := h events e [] rfl
    rw [run_concat]
    rcases (run s r limit events).past_handle s r e with hpast | ⟨hforgets, hpast⟩
    · rw [hpast]
      rfl
    · rw [hpast, hbefore]
      exact ((handle_records _ s e).2.2 hforgets hfails).symm

/-! ## Answers -/

/-- The answer is that of the relations recorded when the region was first asked for. -/
theorem classifies_past (s : Subst) (r : Region) (limit : Int) (events : List Event) :
    Classifies ((run s r limit events).past.Relates s) r
      ((run s r limit events).solver.variance s r).2 := by
  have hrecalls : ((run s r limit events).solver.variance s r).2 =
      classify ((run s r limit events).past.recorded s) r := by
    rw [variance_snd, run_recalls s r limit events, Use.past]
    cases (run s r limit events).asked <;> rfl
  rw [hrecalls]
  exact classifies_classify _ s r

/-- Relations that grow give a region the same variance as long as it stands on no new side, or if it
stood on none and now stands on both. -/
theorem Classifies.of_subrelation_iff {R R' : Region → Region → Prop} {v : Variance}
    (h : Classifies R r v) (hsub : ∀ a b, R a b → R' a b) :
    Classifies R' r v ↔
      ((∃ x, R' r x) → ∃ x, R r x) ∧ ((∃ x, R' x r) → ∃ x, R x r) ∨
        ((∃ x, R' r x) ∧ ∃ x, R' x r) ∧ ¬(∃ x, R r x) ∧ ¬∃ x, R x r := by
  have hlonger : (∃ x, R r x) → ∃ x, R' r x := fun ⟨x, hx⟩ => ⟨x, hsub r x hx⟩
  have hshorter : (∃ x, R x r) → ∃ x, R' x r := fun ⟨x, hx⟩ => ⟨x, hsub x r hx⟩
  constructor
  · intro h'
    -- both relations give the same variance, so they agree on "one side only" and which one
    have hco := h.co.symm.trans h'.co
    have hcontra := h.contra.symm.trans h'.contra
    generalize (∃ x, R r x) = L, (∃ x, R x r) = S, (∃ x, R' r x) = L', (∃ x, R' x r) = S' at *
    grind
  · intro hsides
    have hagree : ((∃ x, R r x) ∧ (¬∃ x, R x r) ↔ (∃ x, R' r x) ∧ ¬∃ x, R' x r) ∧
        ((∃ x, R x r) ∧ (¬∃ x, R r x) ↔ (∃ x, R' x r) ∧ ¬∃ x, R' r x) ∧
        (((∃ x, R r x) ↔ ∃ x, R x r) ↔ ((∃ x, R' r x) ↔ ∃ x, R' x r)) := by
      clear h
      generalize (∃ x, R r x) = L, (∃ x, R x r) = S, (∃ x, R' r x) = L', (∃ x, R' x r) = S' at *
      grind
    exact ⟨h.co.trans hagree.1, h.contra.trans hagree.2.1, h.inv.trans hagree.2.2⟩

/-- An answer is that of the relations recorded when the region was first asked for since constraints
were last added or parameters declared without failure. It is up to date if and only if failed
declarations have put the region on no new side since then, or on both sides when it stood on none. If
no declaration fails, every answer is up to date. -/
theorem variance_run (s : Subst) (r : Region) (limit : Int) (events : List Event) :
    let u := run s r limit events
    Classifies (u.past.Relates s) r (u.solver.variance s r).2 ∧
      (Classifies (u.solver.Relates s) r (u.solver.variance s r).2 ↔
        ((∃ x, u.solver.Relates s r x) → ∃ x, u.past.Relates s r x) ∧
            ((∃ x, u.solver.Relates s x r) → ∃ x, u.past.Relates s x r) ∨
          ((∃ x, u.solver.Relates s r x) ∧ ∃ x, u.solver.Relates s x r) ∧
            ¬(∃ x, u.past.Relates s r x) ∧ ¬∃ x, u.past.Relates s x r) ∧
      ((∀ before e after, events = before ++ e :: after →
          e.fails (run s r limit before).solver = false) →
        Classifies (u.solver.Relates s) r (u.solver.variance s r).2) := by
  intro u
  have hpast : Classifies (u.past.Relates s) r (u.solver.variance s r).2 :=
    classifies_past s r limit events
  have hiff := hpast.of_subrelation_iff fun a b => relates_of_past
  refine ⟨hpast, hiff, fun h => hiff.mpr (.inl ?_)⟩
  -- without failures, the past solver has recorded what the present one has
  have hsame {a b : Region} : u.solver.Relates s a b → u.past.Relates s a b := by
    rw [← mem_recorded_iff, ← mem_recorded_iff, recorded_past h]
    exact id
  exact ⟨fun ⟨x, hx⟩ => ⟨x, hsame hx⟩, fun ⟨x, hx⟩ => ⟨x, hsame hx⟩⟩

/-- `'a` is asked for before and after a constraint puts it on the longer side. Its parameters are
declared without failure, so the second answer is up to date. -/
theorem variance_run_of_declared :
    let events : List Event :=
      [.declare [⟨⟨"'a"⟩, []⟩, ⟨⟨"'b"⟩, [⟨"'a"⟩]⟩], .variance ⟨"'a"⟩, .add [.outlives ⟨"'a"⟩ ⟨"'b"⟩]]
    let u := run .empty ⟨"'a"⟩ 100 events
    (∀ before e after, events = before ++ e :: after →
        e.fails (run .empty ⟨"'a"⟩ 100 before).solver = false) ∧
      (u.solver.variance .empty ⟨"'a"⟩).2 = .inv ∧
      Classifies (u.solver.Relates .empty) ⟨"'a"⟩ (u.solver.variance .empty ⟨"'a"⟩).2 := by
  intro events u
  have hdeclared : ∀ before e after, events = before ++ e :: after →
      e.fails (run .empty ⟨"'a"⟩ 100 before).solver = false := by
    intro before e after h
    rcases before with _ | ⟨_, _ | ⟨_, _ | ⟨_, before⟩⟩⟩
    · obtain ⟨rfl, -⟩ := List.cons.inj h
      rfl
    · obtain ⟨-, h⟩ := List.cons.inj h
      obtain ⟨rfl, -⟩ := List.cons.inj h
      rfl
    · obtain ⟨-, h⟩ := List.cons.inj h
      obtain ⟨-, h⟩ := List.cons.inj h
      obtain ⟨rfl, -⟩ := List.cons.inj h
      rfl
    · simp [events] at h
  exact ⟨hdeclared, rfl, (variance_run .empty ⟨"'a"⟩ 100 events).2.2 hdeclared⟩

/-- `'a` is asked for, and then a declaration fails at its second parameter `'c`, which has an undeclared
bound. The bound of `'b` is recorded and makes `'a` contravariant, but `'a` is still said to be
invariant. -/
theorem variance_out_of_date :
    let u := run .empty ⟨"'a"⟩ 100 [.declare [⟨⟨"'a"⟩, []⟩], .variance ⟨"'a"⟩,
      .declare [⟨⟨"'b"⟩, [⟨"'a"⟩]⟩, ⟨⟨"'c"⟩, [⟨"'x"⟩]⟩]]
    (u.solver.variance .empty ⟨"'a"⟩).2 = .inv ∧
      Classifies (u.solver.Relates .empty) ⟨"'a"⟩ .contra := by
  intro u
  exact ⟨rfl, classifies_classify u.solver .empty ⟨"'a"⟩⟩

end Generics.RegionSolver
