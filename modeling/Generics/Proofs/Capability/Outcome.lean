import Generics.Capability.Registry

/-!
# Outcomes of checks

A check may have no answer, and it changes the remembered verdicts. This module says what holds of
its outcome whenever there is one, given an invariant of the remembered verdicts that the check
keeps.

## Main results

* `CheckM.Ensures`: every answer has a property, and the invariant is kept.
* `CheckM.Ensures.bind`: one check after another.
* `CheckM.Decides`: the check succeeds exactly if a proposition holds.
* `CheckM.decides_forM`: checks on the members of a list decide what is asked of all members.
-/

namespace Generics.CheckM

variable {α β : Type} {I : VerdictCache → Prop}

/-- From remembered verdicts with the invariant `I`, every answer of `m` has the property `post` and
leaves verdicts with the invariant. -/
def Ensures (I : VerdictCache → Prop) (m : CheckM α) (post : Except Error α → Prop) : Prop :=
  ∀ cache outcome cache', I cache → m.run.run cache = some (outcome, cache') →
    I cache' ∧ post outcome

/-! ## Composition -/

/-- A value without a check. -/
theorem ensures_pure {a : α} {post : Except Error α → Prop} (h : post (.ok a)) :
    Ensures I (pure a) post := by
  intro cache outcome cache' hI hrun
  obtain ⟨rfl, rfl⟩ := Prod.mk.inj (Option.some.inj hrun)
  exact ⟨hI, h⟩

/-- An error without a check. -/
theorem ensures_throw {e : Error} {post : Except Error α → Prop} (h : post (.error e)) :
    Ensures I (throw e) post := by
  intro cache outcome cache' hI hrun
  obtain ⟨rfl, rfl⟩ := Prod.mk.inj (Option.some.inj hrun)
  exact ⟨hI, h⟩

/-- Nothing is said of a check that has no answer. -/
theorem ensures_unanswered {post : Except Error α → Prop} : Ensures I unanswered post := by
  intro cache outcome cache' hI hrun
  cases hrun

/-- The second check runs only if the first one succeeds. -/
theorem run_bind (m : CheckM α) (f : α → CheckM β) (cache : VerdictCache) :
    (m >>= f).run.run cache = (m.run.run cache).bind fun p =>
      match p with
      | (.ok a, cache) => (f a).run.run cache
      | (.error e, cache) => some (.error e, cache) := by
  simp only [ExceptT.run_bind, StateT.run_bind]
  cases m.run.run cache with
  | none => rfl
  | some p => rcases p with ⟨_ | _, _⟩ <;> rfl

/-- Explaining changes errors only. -/
theorem run_explaining (m : CheckM α) (explain : Error → Error) (cache : VerdictCache) :
    (m.explaining explain).run.run cache =
      (m.run.run cache).map fun p => (p.1.mapError explain, p.2) := by
  simp only [explaining, tryCatch, tryCatchThe, MonadExceptOf.tryCatch, ExceptT.tryCatch]
  show StateT.run (m.run >>= _) cache = _
  rw [StateT.run_bind]
  cases m.run.run cache with
  | none => rfl
  | some p => rcases p with ⟨_ | _, _⟩ <;> rfl

/-- A verdict that still counts is the answer. -/
theorem run_remembering_of_some {generation : Nat} {key : String} (work : CheckM Unit)
    {cache : VerdictCache} {verdict : Except Error Unit}
    (h : cache.verdict? generation key = some verdict) :
    (remembering generation key work).run.run cache = some (verdict, cache) := by
  simp only [remembering, ExceptT.run, ExceptT.mk, StateT.run, h]

/-- Otherwise the answer is that of the work, and it is remembered. -/
theorem run_remembering_of_none {generation : Nat} {key : String} (work : CheckM Unit)
    {cache : VerdictCache} (h : cache.verdict? generation key = none) :
    (remembering generation key work).run.run cache =
      (work.run.run cache).bind fun p =>
        some (p.1, p.2.remember key ⟨generation, p.1⟩) := by
  simp only [remembering, ExceptT.run, ExceptT.mk, StateT.run, h]
  rfl

/-- One check after another. -/
theorem Ensures.bind {m : CheckM α} {f : α → CheckM β} {post : Except Error α → Prop}
    {post' : Except Error β → Prop} (hm : Ensures I m post)
    (hok : ∀ a, post (.ok a) → Ensures I (f a) post')
    (herror : ∀ e, post (.error e) → post' (.error e)) : Ensures I (m >>= f) post' := by
  intro cache outcome cache' hI hrun
  rw [run_bind] at hrun
  obtain ⟨⟨first, between⟩, hfirst, hrun⟩ := Option.bind_eq_some_iff.mp hrun
  obtain ⟨hbetween, hpost⟩ := hm cache first between hI hfirst
  cases first with
  | ok a => exact hok a hpost between outcome cache' hbetween hrun
  | error e =>
    obtain ⟨rfl, rfl⟩ := Prod.mk.inj (Option.some.inj hrun)
    exact ⟨hbetween, herror e hpost⟩

/-- A step outside the checks: what follows may use its result, and its error ends the check. -/
theorem Ensures.lift_bind {x : Except Error α} {f : α → CheckM β} {post : Except Error β → Prop}
    (hok : ∀ a, x = .ok a → Ensures I (f a) post) (herror : ∀ e, x = .error e → post (.error e)) :
    Ensures I (liftM x >>= f) post := by
  cases x with
  | ok a => exact hok a rfl
  | error e => exact ensures_throw (herror e rfl)

/-! ## Decisions -/

/-- Every answer of `m` is a success exactly if `P` holds. -/
def Decides (I : VerdictCache → Prop) (m : CheckM α) (P : Prop) : Prop :=
  Ensures I m fun outcome => outcome.isOk = true ↔ P

/-- Success decides what holds. -/
theorem decides_pure {a : α} {P : Prop} (h : P) : Decides I (pure a) P :=
  ensures_pure (by simpa [Except.isOk, Except.toBool] using h)

/-- Failure decides what does not hold. -/
theorem decides_throw {e : Error} {P : Prop} (h : ¬ P) : Decides I (throw e : CheckM α) P :=
  ensures_throw (by simpa [Except.isOk, Except.toBool] using h)

theorem Decides.congr {m : CheckM α} {P Q : Prop} (hm : Decides I m P) (h : P ↔ Q) :
    Decides I m Q := by
  rwa [← h]

/-- Two checks in a row decide a conjunction; the second one may rely on the first. -/
theorem Decides.bind {m : CheckM α} {f : α → CheckM β} {P Q : Prop} (hm : Decides I m P)
    (hf : P → ∀ a, Decides I (f a) Q) : Decides I (m >>= f) (P ∧ Q) := by
  refine Ensures.bind hm (fun a ha => ?_) (fun e he => ?_)
  · have hP : P := ha.mp rfl
    exact (hf hP a).congr (by simp [hP])
  · have hP : ¬ P := fun hP => by cases he.mpr hP
    simp [Except.isOk, Except.toBool, hP]

/-- A step outside the checks has to succeed if the proposition holds. -/
theorem Decides.lift_bind {x : Except Error α} {f : α → CheckM β} {P : Prop}
    (hok : ∀ a, x = .ok a → Decides I (f a) P) (hstep : P → ∃ a, x = .ok a) :
    Decides I (liftM x >>= f) P := by
  refine Ensures.lift_bind hok fun e he => ?_
  have hP : ¬ P := by
    intro hP
    obtain ⟨a, ha⟩ := hstep hP
    rw [he] at ha
    cases ha
  simp [Except.isOk, Except.toBool, hP]

/-- Explaining an error leaves the decision as it is. -/
theorem Decides.explaining {m : CheckM α} {P : Prop} (hm : Decides I m P)
    (explain : Error → Error) : Decides I (m.explaining explain) P := by
  intro cache outcome cache' hI hrun
  rw [run_explaining] at hrun
  obtain ⟨⟨first, between⟩, hfirst, hrun⟩ := Option.map_eq_some_iff.mp hrun
  obtain ⟨rfl, rfl⟩ := Prod.mk.inj hrun
  obtain ⟨hbetween, hP⟩ := hm cache first between hI hfirst
  refine ⟨hbetween, ?_⟩
  rw [← hP]
  cases first <;> rfl

/-- Checks on the members of a list decide what is asked of all members. -/
theorem decides_forM {l : List α} {f : α → CheckM Unit} {P : α → Prop}
    (h : ∀ a ∈ l, Decides I (f a) (P a)) : Decides I (l.forM f) (∀ a ∈ l, P a) := by
  induction l with
  | nil => exact decides_pure (by simp)
  | cons a l ih =>
    obtain ⟨hhead, htail⟩ := List.forall_mem_cons.mp h
    exact (hhead.bind fun _ _ => ih htail).congr List.forall_mem_cons.symm

end Generics.CheckM
