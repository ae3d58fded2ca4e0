import Generics.Proofs.Capability.Decision

/-!
# Associated types are determined

An associated type is found by selecting an implementation, and the conditions of the implementation
are checked on the way. What is remembered of earlier checks, and how deep the checks may recurse, can
change the reason that is given for a condition that does not hold, and nothing else.

## Main results

* `CheckM.Determined`: all answers come to the same, up to the reasons why bounds do not hold;
* `Catalog.determined_associatedType`: finding an associated type is determined.
-/

namespace Generics

/-- The error without the reason that it gives for a bound that does not hold. -/
def Error.withoutReason : Error → Error
  | .boundNotSatisfied type bound _ => .boundNotSatisfied type bound ""
  | e => e

namespace CheckM

variable {α β : Type} {I : VerdictCache → Prop}

/-- All answers of the checks come to the same, up to the reasons why bounds do not hold. -/
def Determined (I : VerdictCache → Prop) (checks : Nat → CheckM α) : Prop :=
  ∃ outcome, ∀ depth, Ensures I (checks depth) fun o => o.mapError Error.withoutReason = outcome

theorem determined_pure (a : α) : Determined I fun _ => (pure a : CheckM α) :=
  ⟨.ok a, fun _ => ensures_pure rfl⟩

theorem determined_throw (e : Error) : Determined I fun _ => (throw e : CheckM α) :=
  ⟨.error e.withoutReason, fun _ => ensures_throw rfl⟩

theorem Determined.bind {checks : Nat → CheckM α} {f : Nat → α → CheckM β}
    (h : Determined I checks) (hf : ∀ a, Determined I fun depth => f depth a) :
    Determined I fun depth => checks depth >>= f depth := by
  obtain ⟨first, hfirst⟩ := h
  cases first with
  | ok a =>
    obtain ⟨outcome, hrest⟩ := hf a
    refine ⟨outcome, fun depth => (hfirst depth).bind ?_ nofun⟩
    intro a' ha'
    obtain rfl : a' = a := Except.ok.inj ha'
    exact hrest depth
  | error e =>
    refine ⟨.error e, fun depth => (hfirst depth).bind nofun ?_⟩
    intro e' he'
    exact congrArg Except.error (Except.error.inj he')

/-- After the same step outside the checks. -/
theorem Determined.lift_bind {x : Except Error α} {f : Nat → α → CheckM β}
    (hf : ∀ a, x = .ok a → Determined I fun depth => f depth a) :
    Determined I fun depth => (liftM x >>= f depth : CheckM β) := by
  cases x with
  | ok a => exact hf a rfl
  | error e => exact determined_throw e

/-- A decision is determined once it is explained in one way up to reasons. -/
theorem determined_explaining {checks : Nat → CheckM Unit} {P : Prop}
    (h : ∀ depth, Decides I (checks depth) P) {explain : Error → Error} {e : Error}
    (hexplain : ∀ e', (explain e').withoutReason = e) :
    Determined I fun depth => (checks depth).explaining explain := by
  have hexplained (depth : Nat) : Ensures I ((checks depth).explaining explain) fun o =>
      (P → o = .ok ()) ∧ (¬ P → o.mapError Error.withoutReason = .error e) := by
    intro cache outcome cache' hI hrun
    rw [run_explaining] at hrun
    obtain ⟨⟨first, between⟩, hfirst, heq⟩ := Option.map_eq_some_iff.mp hrun
    obtain ⟨rfl, rfl⟩ := Prod.mk.inj heq
    obtain ⟨hbetween, hdecides⟩ := h depth cache first between hI hfirst
    refine ⟨hbetween, ?_⟩
    cases first with
    | ok u =>
      have hP : P := hdecides.mp rfl
      exact ⟨fun _ => rfl, fun hnot => absurd hP hnot⟩
    | error e' =>
      have hnot : ¬ P := fun hP => by cases hdecides.mpr hP
      exact ⟨fun hP => absurd hP hnot, fun _ => congrArg Except.error (hexplain e')⟩
  -- whether the checks pass does not depend on the depth
  by_cases hP : P
  · refine ⟨.ok (), fun depth cache outcome cache' hI hrun => ?_⟩
    obtain ⟨hI', hok, -⟩ := hexplained depth cache outcome cache' hI hrun
    obtain rfl := hok hP
    exact ⟨hI', rfl⟩
  · refine ⟨.error e, fun depth cache outcome cache' hI hrun => ?_⟩
    obtain ⟨hI', -, herror⟩ := hexplained depth cache outcome cache' hI hrun
    exact ⟨hI', herror hP⟩

end CheckM

namespace Catalog

variable {c : Catalog} {I : VerdictCache → Prop}

/-- The conditions of a selection are checked one after the other. -/
theorem determined_checkClauses {check : Nat → Ty → Bound → CheckM Unit} {explain : Error → Error}
    {e : Error} (hexplain : ∀ e', (explain e').withoutReason = e) {sel : Selection}
    {clauses : List WhereClause}
    (hcheck : ∀ q ∈ sel.questions clauses, ∀ depth,
      CheckM.Decides I (c.checkBoundsWith (check depth) q.type q.bounds) (c.Holds q)) :
    CheckM.Determined I fun depth => c.checkClauses (check depth) explain sel clauses := by
  induction clauses generalizing sel with
  | nil => exact CheckM.determined_pure sel
  | cons clause clauses ih =>
    rw [Selection.questions] at hcheck
    obtain ⟨hhead, htail⟩ := List.forall_mem_cons.mp hcheck
    exact (CheckM.determined_explaining hhead hexplain).bind fun _ => ih htail

theorem determined_selectWith {check : Nat → Ty → Bound → CheckM Unit} {capability : String} {t : Ty}
    {args : List Ty}
    (hcheck : ∀ sel, c.FirstMatch capability t args sel → ∀ q ∈ sel.conditions, ∀ depth,
      CheckM.Decides I (c.checkBoundsWith (check depth) q.type q.bounds) (c.Holds q)) :
    CheckM.Determined I fun depth => c.selectWith (check depth) capability t args := by
  unfold selectWith
  cases hselect : c.select? capability t args with
  | none => exact CheckM.determined_throw _
  | some sel =>
    -- the reason is the only part that a condition which does not hold is quoted in
    refine determined_checkClauses (e := .boundNotSatisfied t.render (Bound.applied capability args) "") ?_
      (hcheck sel (select?_eq_some_iff.mp hselect))
    exact fun _ => rfl

variable {D : Set Question}

theorem determined_select (hlegible : Legible D) {capability : String} {t : Ty} {args : List Ty}
    (harising : c.arising (c.conditions capability t args) ⊆ D) :
    CheckM.Determined (c.SoundCache D) fun depth => c.select depth capability t args := by
  refine CheckM.Determined.lift_bind fun cap hfind => CheckM.Determined.lift_bind fun filled hargs => ?_
  rw [find_eq_ok_iff] at hfind
  rw [find?_name hfind]
  refine determined_selectWith fun sel hmatch q hq depth => ?_
  exact decides_root hlegible harising depth (.root ⟨sel, (selects_iff hfind hargs).mpr hmatch, hq⟩)

/-- Finding an associated type is determined. -/
theorem determined_associatedType (hlegible : Legible D) {capability : String} {t : Ty}
    (harising : c.arising (c.conditions capability t []) ⊆ D) (name : String) :
    CheckM.Determined (c.SoundCache D) fun depth => c.associatedType depth capability t name := by
  refine CheckM.Determined.lift_bind fun cap hfind => ?_
  simp only
  split
  · exact CheckM.determined_throw _
  · refine CheckM.Determined.bind (determined_select hlegible harising) fun sel => ?_
    split
    · exact CheckM.determined_pure _
    · exact CheckM.determined_throw _

end Catalog

end Generics
