import Generics.Proofs.Region.Rounds

/-!
# What is offered to a region variable

A constraint between an undecided region variable and a known region offers that region to the
region variable, and chains of such constraints offer it to others. A region variable takes the
first region that it comes upon and keeps it. Which one that is depends on the order of the
constraints, but what is offered does not, and neither does which region variables are offered
anything at all.

## Main results

* `RegionSolver.Offered`: the regions that are offered to a region variable;
* `RegionSolver.known_or_offered`: region variables are decided only to be what is offered to them;
* `RegionSolver.Rounds.exists_known_of_offered`: after a solution each region variable that is
  offered a region is decided.
-/

namespace Generics.RegionSolver

variable {sv sv' : RegionSolver} {s : Subst} {cs cs' : List RegionConstraint} {v a : Region}

/-- The region `a` is offered to the undecided region variable `v`: a constraint joins `v` to a
region that stands for `a`, or to another region variable to which `a` is offered. -/
inductive Offered (sv : RegionSolver) (s : Subst) (cs : List RegionConstraint) :
    Region → Region → Prop
  | direct {c : RegionConstraint} {v x a : Region} (hc : c ∈ queue s cs) (hjoins : Joins c v x)
      (hv : sv.known v = none) (hx : sv.known x = some a) : Offered sv s cs v a
  | through {c : RegionConstraint} {v w a : Region} (hc : c ∈ queue s cs) (hjoins : Joins c v w)
      (hv : sv.known v = none) (h : Offered sv s cs w a) : Offered sv s cs v a

/-- What is offered depends on what is known and on which constraints there are. -/
theorem Offered.congr (h : Offered sv s cs v a) (hknown : ∀ r, sv'.known r = sv.known r)
    (hqueue : queue s cs ⊆ queue s cs') : Offered sv' s cs' v a := by
  induction h with
  | direct hc hjoins hv hx =>
    rw [← hknown] at hv hx
    exact .direct (hqueue hc) hjoins hv hx
  | through hc hjoins hv _ ih =>
    rw [← hknown] at hv
    exact .through (hqueue hc) hjoins hv ih

/-- What is offered comes from a region in one of the constraints. -/
theorem Offered.exists_source (h : Offered sv s cs v a) :
    ∃ c ∈ queue s cs, ∃ x y, Joins c x y ∧ sv.known x = some a := by
  induction h with
  | direct hc hjoins _ hx => exact ⟨_, hc, _, _, hjoins.symm, hx⟩
  | through _ _ _ _ ih => exact ih

/-- What a region is known to stand for when solving ends was known before or is offered to it. -/
theorem known_or_offered {result : Except Error RegionSolution}
    (hsolve : sv.solve s = (sv', result)) (ha : sv'.known v = some a) :
    sv.known v = some a ∨ Offered sv s sv.constraints v a := by
  let Accounted (sv' : RegionSolver) : Prop := sv.Grows sv' ∧
    ∀ v a, sv'.known v = some a → sv.known v = some a ∨ Offered sv s sv.constraints v a
  -- a decision passes on what is known of the other region of the constraint
  have hstep : ∀ sv' c v r, c ∈ queue s sv.constraints → sv'.examine s c = .ok (.decides v r) →
      Accounted sv' → Accounted (sv'.bind v r) := by
    rintro sv' c v r hc hdecides ⟨hgrows, ih⟩
    obtain ⟨x, hjoins, hv, hx⟩ := joins_of_decides hdecides
    refine ⟨hgrows.bind hv hx, fun w a hw => ?_⟩
    by_cases hne : w = v
    · subst hne
      rw [known_bind_self] at hw
      obtain rfl := Option.some.inj hw
      have hunknown := known_eq_none_iff.mpr ((known_eq_none_iff.mp hv).of_grows hgrows)
      rcases ih x r hx with hx | hoffered
      · exact .inr (.direct hc hjoins hunknown hx)
      · exact .inr (.through hc hjoins hunknown hoffered)
    · rw [known_bind_of_ne hne] at hw
      exact ih w a hw
  have hall : Accounted (sv.solve s).1 := solve_induction hstep ⟨.refl, fun _ _ => .inl⟩
  rw [hsolve] at hall
  exact hall.2 v a ha

/-- After a solution each region variable that is offered a region is decided, though perhaps to be
another one. -/
theorem Rounds.exists_known_of_offered {k : Nat} {pending : List RegionConstraint}
    (h : Rounds s sv cs k sv' (.ok pending)) (hoffered : Offered sv s cs v a) :
    ∃ b, sv'.known v = some b := by
  -- otherwise the constraint could still decide it
  have hdecided : ∀ {c v x b}, c ∈ queue s cs → Joins c v x → sv'.known x = some b →
      ∃ b, sv'.known v = some b := by
    intro c v x b hc hjoins hx
    cases hv : sv'.known v with
    | none => exact absurd (examine_of_joins hjoins hv hx) (h.stable c hc v b)
    | some b => exact ⟨b, rfl⟩
  induction hoffered with
  | direct hc hjoins _ hx => exact hdecided hc hjoins (h.grows.known hx)
  | through hc hjoins _ _ ih =>
    obtain ⟨b, hb⟩ := ih
    exact hdecided hc hjoins hb

end Generics.RegionSolver
