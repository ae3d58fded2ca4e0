import Generics.Capability.Registry
import Generics.Proofs.Capability.Supertraits
import Mathlib.Data.Set.Basic

/-!
# Satisfaction of bounds

What it means that a type satisfies a bound, as an inductive relation. It does not mention verdicts
that are remembered, bounds that are being checked or a depth. A bound whose premises lead back to
it is therefore not satisfied: a derivation is finite.

## Main results

* `Catalog.Satisfies`: the relation between types and bounds.
* `Catalog.satisfies_iff`: what a bound on a declared capability comes down to.
* `Catalog.not_satisfies_of_cycle`: a bound that is among its own premises is not satisfied.
-/

namespace Generics

/-- The question whether a type satisfies all of some bounds. -/
structure Question where
  type : Ty
  bounds : List Bound
deriving DecidableEq

/-- The conditions that a selection still has to meet, one question for each of the clauses. The
names of fresh variables pass from one clause to the next. -/
def Selection.questions (sel : Selection) : List WhereClause → List Question
  | [] => []
  | clause :: clauses =>
    let (bounds, sel) := sel.instantiateBounds clause.bounds
    let (t, sel) := sel.instantiate clause.type
    ⟨t, bounds⟩ :: sel.questions clauses

/-- The conditions of the selected implementation. -/
def Selection.conditions (sel : Selection) : List Question :=
  sel.questions sel.implementation.clauses

/-- A selection is of the implementation that was tried. -/
theorem Selection.implementation_of_of? {i : Implementation} {target : Ty} {sel : Selection}
    (h : Selection.of? i target = some sel) : sel.implementation = i := by
  simp only [Selection.of?] at h
  split at h
  · obtain rfl := Option.some.inj h
    rfl
  · cases h

namespace Catalog

/-! ## The implementation that matches -/

/-- The selected implementation is the first one stored for the capability that matches the type and
the arguments. -/
def FirstMatch (c : Catalog) (capability : String) (t : Ty) (args : List Ty)
    (sel : Selection) : Prop :=
  ∃ before after, c.implementationsOf capability = before ++ sel.implementation :: after ∧
    Selection.of? sel.implementation (Implementation.headerOf t args) = some sel ∧
    ∀ i ∈ before, Selection.of? i (Implementation.headerOf t args) = none

/-- Selecting finds the first match. -/
theorem select?_eq_some_iff {c : Catalog} {capability : String} {t : Ty} {args : List Ty}
    {sel : Selection} :
    c.select? capability t args = some sel ↔ c.FirstMatch capability t args sel := by
  rw [select?, List.findSome?_eq_some_iff]
  constructor
  · rintro ⟨before, i, after, hsplit, hsel, hbefore⟩
    obtain rfl := Selection.implementation_of_of? hsel
    exact ⟨before, after, hsplit, hsel, hbefore⟩
  · rintro ⟨before, after, hsplit, hsel, hbefore⟩
    exact ⟨before, sel.implementation, after, hsplit, hsel, hbefore⟩

/-- At most one implementation is the first match. -/
theorem FirstMatch.unique {c : Catalog} {capability : String} {t : Ty} {args : List Ty}
    {sel sel' : Selection} (h : c.FirstMatch capability t args sel)
    (h' : c.FirstMatch capability t args sel') : sel = sel' :=
  Option.some.inj ((select?_eq_some_iff.mpr h).symm.trans (select?_eq_some_iff.mpr h'))

/-- The capability is declared, the arguments can be filled in, and the selected implementation is
the first match. -/
def Selects (c : Catalog) (capability : String) (t : Ty) (args : List Ty)
    (sel : Selection) : Prop :=
  ∃ cap filled, c.find? capability = some cap ∧ cap.fillArgs args = .ok filled ∧
    c.FirstMatch capability t filled sel

/-- Once the arguments are filled in, selecting is matching. -/
theorem selects_iff {c : Catalog} {capability : String} {t : Ty} {args filled : List Ty}
    {cap : Capability} (hfind : c.find? capability = some cap)
    (hargs : cap.fillArgs args = .ok filled) {sel : Selection} :
    c.Selects capability t args sel ↔ c.FirstMatch capability t filled sel := by
  constructor
  · rintro ⟨cap', filled', hfind', hargs', hmatch⟩
    obtain rfl := Option.some.inj (hfind.symm.trans hfind')
    obtain rfl := Except.ok.inj (hargs.symm.trans hargs')
    exact hmatch
  · exact fun hmatch => ⟨cap, filled, hfind, hargs, hmatch⟩

/-- At most one implementation is selected. -/
theorem Selects.unique {c : Catalog} {capability : String} {t : Ty} {args : List Ty}
    {sel sel' : Selection} (h : c.Selects capability t args sel)
    (h' : c.Selects capability t args sel') : sel = sel' := by
  obtain ⟨cap, filled, hfind, hargs, hmatch⟩ := h
  exact hmatch.unique ((selects_iff hfind hargs).mp h')

/-! ## The relation -/

/-- The type satisfies the bound. -/
inductive Satisfies (c : Catalog) : Ty → Bound → Prop
  /-- Bounds on regions are not a matter of implementations. -/
  | regional {t : Ty} {b : Bound} (hkind : b.kind.isRegional = true) : Satisfies c t b
  /-- The capability is declared and its arguments can be filled in. An implementation matches and
  its conditions are satisfied. The arguments satisfy the bounds of the parameters. The walk over
  the supertraits succeeds, and for each of them an implementation matches whose conditions are
  satisfied. -/
  | capability {t : Ty} {b : Bound} {cap : Capability} {args : List Ty} {sel : Selection}
      (hfind : c.find? b.capability = some cap) (hargs : cap.fillArgs b.args = .ok args)
      (hmatch : c.FirstMatch b.capability t args sel)
      (hconditions : ∀ q ∈ sel.conditions, ∀ b' ∈ q.bounds, Satisfies c q.type b')
      (hparams : ∀ p ∈ cap.params.zip args, ∀ b' ∈ p.1.bounds, Satisfies c p.2 b')
      (hwalk : ∃ names, c.supertraits b.capability = .ok names)
      (hsupers : ∀ super, c.IsSupertrait b.capability super → ∃ sel, c.Selects super t [] sel)
      (hsuperConditions : ∀ super sel, c.IsSupertrait b.capability super →
        c.Selects super t [] sel → ∀ q ∈ sel.conditions, ∀ b' ∈ q.bounds, Satisfies c q.type b') :
      Satisfies c t b

/-- The type of the question satisfies all the bounds. -/
def Holds (c : Catalog) (q : Question) : Prop := ∀ b ∈ q.bounds, c.Satisfies q.type b

/-- The first implementation that matches has its conditions satisfied. -/
def Implements (c : Catalog) (capability : String) (t : Ty) (args : List Ty) : Prop :=
  ∃ sel, c.Selects capability t args sel ∧ ∀ q ∈ sel.conditions, c.Holds q

/-- Only a declared capability, with arguments that suffice, is implemented. -/
theorem Implements.exists_cap {c : Catalog} {capability : String} {t : Ty} {args : List Ty}
    (h : c.Implements capability t args) :
    ∃ cap filled, c.find? capability = some cap ∧ cap.fillArgs args = .ok filled := by
  obtain ⟨sel, ⟨cap, filled, hfind, hargs, -⟩, -⟩ := h
  exact ⟨cap, filled, hfind, hargs⟩

/-- Once the arguments are filled in, the first match decides. -/
theorem implements_iff {c : Catalog} {capability : String} {t : Ty} {args filled : List Ty}
    {cap : Capability} (hfind : c.find? capability = some cap)
    (hargs : cap.fillArgs args = .ok filled) :
    c.Implements capability t args ↔
      ∃ sel, c.FirstMatch capability t filled sel ∧ ∀ q ∈ sel.conditions, c.Holds q := by
  simp only [Implements, selects_iff hfind hargs]

/-- Only a bound on a declared capability, with arguments that suffice, is satisfied. -/
theorem Satisfies.exists_cap {c : Catalog} {t : Ty} {b : Bound} (h : c.Satisfies t b)
    (hkind : b.kind.isRegional = false) :
    ∃ cap args, c.find? b.capability = some cap ∧ cap.fillArgs b.args = .ok args := by
  cases h with
  | regional hregional => simp [hregional] at hkind
  | capability hfind hargs => exact ⟨_, _, hfind, hargs⟩

/-- What a bound on a declared capability comes down to once its arguments are filled in. -/
theorem satisfies_iff {c : Catalog} {t : Ty} {b : Bound} {cap : Capability} {args : List Ty}
    (hkind : b.kind.isRegional = false) (hfind : c.find? b.capability = some cap)
    (hargs : cap.fillArgs b.args = .ok args) :
    c.Satisfies t b ↔ c.Implements b.capability t b.args ∧
      (∀ p ∈ cap.params.zip args, ∀ b' ∈ p.1.bounds, c.Satisfies p.2 b') ∧
      (∃ names, c.supertraits b.capability = .ok names) ∧
      ∀ super, c.IsSupertrait b.capability super → c.Implements super t [] := by
  constructor
  · intro h
    cases h with
    | regional hregional => simp [hregional] at hkind
    | capability hfind' hargs' hmatch hconditions hparams hwalk hsupers hsuperConditions =>
      obtain rfl := Option.some.inj (hfind.symm.trans hfind')
      obtain rfl := Except.ok.inj (hargs.symm.trans hargs')
      refine ⟨⟨_, (selects_iff hfind hargs).mpr hmatch, hconditions⟩, hparams, hwalk, ?_⟩
      intro super hsuper
      obtain ⟨sel, hsel⟩ := hsupers super hsuper
      exact ⟨sel, hsel, hsuperConditions super sel hsuper hsel⟩
  · rintro ⟨⟨sel, hsel, hconditions⟩, hparams, hwalk, hsupers⟩
    have hmatch := (selects_iff hfind hargs).mp hsel
    refine .capability hfind hargs hmatch hconditions hparams hwalk ?_ ?_
    · intro super hsuper
      obtain ⟨sel, hsel, -⟩ := hsupers super hsuper
      exact ⟨sel, hsel⟩
    · intro super sel hsuper hsel
      obtain ⟨sel', hsel', hconditions'⟩ := hsupers super hsuper
      -- there is one first match, so its conditions are those that hold
      obtain rfl := hsel.unique hsel'
      exact hconditions'

/-! ## Premises -/

/-- The conditions of the first implementation that matches; none if no implementation does. -/
def conditions (c : Catalog) (capability : String) (t : Ty) (args : List Ty) : Set Question :=
  {q | ∃ sel, c.Selects capability t args sel ∧ q ∈ sel.conditions}

/-- The questions that come up directly when it is decided whether the type satisfies the bound. -/
inductive Asks (c : Catalog) (t : Ty) (b : Bound) : Question → Prop
  /-- A condition of the implementation that matches. -/
  | condition {q : Question} (hq : q ∈ c.conditions b.capability t b.args) : Asks c t b q
  /-- A bound of a parameter on its argument. -/
  | argument {cap : Capability} {args : List Ty} {p : CapabilityParam × Ty} {b' : Bound}
      (hfind : c.find? b.capability = some cap) (hargs : cap.fillArgs b.args = .ok args)
      (hp : p ∈ cap.params.zip args) (hb : b' ∈ p.1.bounds) (hkind : b'.kind.isRegional = false) :
      Asks c t b ⟨p.2, [b']⟩
  /-- A condition of the implementation of a supertrait. -/
  | supertrait {super : String} {q : Question} (hsuper : c.IsSupertrait b.capability super)
      (hq : q ∈ c.conditions super t []) : Asks c t b q

/-- The first type and bound come up directly when the second ones are decided. -/
def IsPremise (c : Catalog) (p p' : Ty × Bound) : Prop :=
  p'.2.kind.isRegional = false ∧ ∃ q, c.Asks p'.1 p'.2 q ∧ q.type = p.1 ∧ p.2 ∈ q.bounds

/-- From a bound that is satisfied one cannot pass to premises for ever. -/
theorem Satisfies.acc {c : Catalog} {t : Ty} {b : Bound} (h : c.Satisfies t b) :
    Acc c.IsPremise (t, b) := by
  induction h with
  | regional hregional =>
    refine .intro _ fun p hp => ?_
    simp [IsPremise, hregional] at hp
  | capability hfind hargs hmatch _ _ _ _ _ ihconditions ihparams ihsupers =>
    -- what the bound asks is determined, so each premise is among those of the derivation
    refine .intro _ ?_
    rintro ⟨t', b'⟩ ⟨-, q, hasks, rfl, hb'⟩
    cases hasks with
    | condition hq =>
      obtain ⟨sel, hsel, hq⟩ := hq
      obtain rfl := hmatch.unique ((selects_iff hfind hargs).mp hsel)
      exact ihconditions q hq b' hb'
    | argument hfind' hargs' hp hb _ =>
      obtain rfl := Option.some.inj (hfind.symm.trans hfind')
      obtain rfl := Except.ok.inj (hargs.symm.trans hargs')
      have hbound := ihparams _ hp _ hb
      rwa [← List.mem_singleton.mp hb'] at hbound
    | supertrait hsuper hq =>
      obtain ⟨sel, hsel, hq⟩ := hq
      exact ihsupers _ _ hsuper hsel q hq b' hb'

/-- A bound that comes up again among its own premises is not satisfied. -/
theorem not_satisfies_of_cycle {c : Catalog} {t : Ty} {b : Bound}
    (hcycle : Relation.TransGen c.IsPremise (t, b) (t, b)) : ¬ c.Satisfies t b := by
  intro h
  have hacc : Acc (Relation.TransGen c.IsPremise) (t, b) := h.acc.transGen
  generalize (t, b) = p at hcycle hacc
  induction hacc with
  | intro p _ ih => exact ih p hcycle hcycle

end Catalog

end Generics
