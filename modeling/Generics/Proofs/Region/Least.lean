import Generics.Proofs.Region.Preorder
import Generics.Proofs.Region.Reachable
import Mathlib.Order.Bounds.Basic

/-!
# The least order of regions

The declared bounds of a solver leave many preorders of the regions open. Which region outlives which is
the least of them: a region outlives another one only if it does so in every preorder that contains the
bounds and puts the static region on top.

## Main results

* `RegionSolver.Reachable.exists_placeholder`: the placeholders of a solver have the names of
  placeholders, so none of them is the static region;
* `RegionSolver.outlives_isLeast`: the search ends and decides the least preorder.
-/

namespace Generics

namespace RegionParam

/-- The relation is a preorder of the regions that contains the declared bounds and puts the static region
above every region. -/
structure OutlivesOrder (params : List RegionParam) (R : Region → Region → Prop) : Prop where
  refl : ∀ a, R a a
  trans : ∀ a b c, R a b → R b c → R a c
  bound : ∀ p ∈ params, ∀ b ∈ p.bounds, R p.name b
  static : ∀ a, R .static a

variable {params : List RegionParam} {R : Region → Region → Prop}

/-- What follows from the declared bounds holds in every such preorder. -/
theorem OutlivesOrder.of_outlives (h : OutlivesOrder params R) {a b : Region}
    (hab : Outlives (edges params) a b) : R a b := by
  induction hab with
  | refl a => exact h.refl a
  | bound hedge =>
    obtain ⟨p, hp, hedge⟩ := List.mem_flatMap.mp hedge
    obtain ⟨b, hb, heq⟩ := List.mem_map.mp hedge
    obtain ⟨rfl, rfl⟩ := Prod.mk.inj heq
    exact h.bound p hp b hb
  | static a => exact h.static a
  | trans _ _ ihab ihbc => exact h.trans _ _ _ ihab ihbc

theorem outlivesOrder_outlives (params : List RegionParam) :
    OutlivesOrder params (Outlives (edges params)) where
  refl := .refl
  trans _ _ _ := .trans
  bound p hp b hb := .bound (List.mem_flatMap.mpr ⟨p, hp, List.mem_map.mpr ⟨b, hb, rfl⟩⟩)
  static := .static

end RegionParam

namespace RegionSolver

variable {sv : RegionSolver}

/-! ## Placeholders -/

theorem placeholder_ne_static (q : Region) (n : Nat) : placeholder q n ≠ .static := by
  intro h
  have hchars : (placeholder q n).name.toList = Region.static.name.toList := by rw [h]
  simp [placeholder, Region.static] at hchars

theorem mem_placeholders_placehold {quantified : List Region} {p : Region}
    (h : p ∈ (sv.placehold quantified).2.placeholders) :
    p ∈ sv.placeholders ∨ ∃ q n, p = placeholder q n := by
  induction quantified generalizing sv with
  | nil => exact .inl h
  | cons q qs ih =>
    rcases ih h with hp | hp
    · rcases List.mem_insert_iff.mp hp with rfl | hp
      · exact .inr ⟨q, _, rfl⟩
      · exact .inl hp
    · exact .inr hp

/-- Only entering a higher-ranked type makes placeholders. -/
theorem Reachable.exists_placeholder (h : sv.Reachable) {p : Region} (hp : p ∈ sv.placeholders) :
    ∃ q n, p = placeholder q n := by
  -- a new solver has no placeholders, and only `enter` makes any
  induction h with
  | new limit => cases hp
  | @declare sv _ params ih =>
    obtain ⟨accepted, variances, -, hdeclare⟩ := exists_declare sv params
    rw [hdeclare] at hp
    exact ih hp
  | fresh _ ih => exact ih hp
  | add _ _ ih => exact ih hp
  | enter _ t quantified ih => exact (mem_placeholders_placehold hp).elim ih id
  | @elide sv _ sig ih =>
    obtain ⟨filled, -, helide⟩ := exists_elide sv sig
    rw [helide] at hp
    exact ih hp
  | @solve sv _ s ih =>
    obtain ⟨resolution, hsolve⟩ := (grows_solve sv s).exists_eq
    rw [hsolve] at hp
    exact ih hp
  | variance _ s r ih =>
    unfold RegionSolver.variance at hp
    split at hp
    · exact ih hp
    · exact ih hp

/-! ## The least preorder -/

/-- However regions were declared, a search for a region that another one outlives ends, and the relation
that it decides is the least preorder that contains the declared bounds and puts the static region above
every region. A placeholder without bounds outlives only itself. -/
theorem outlives_isLeast (sv : RegionSolver) :
    (∀ b, WellFounded fun s' s : RegionParam.Search => RegionParam.turn sv.params b s = .next s') ∧
      IsLeast {R | RegionParam.OutlivesOrder sv.params R} (fun a b => sv.outlives a b = true) ∧
      (sv.Reachable → ∀ p ∈ sv.placeholders, RegionParam.boundsOf sv.params p = [] →
        ∀ b, sv.outlives p b = true ↔ b = p) := by
  have hdecides : (fun a b => sv.outlives a b = true) =
      RegionParam.Outlives (RegionParam.edges sv.params) :=
    funext fun a => funext fun b => propext RegionParam.outlives_iff
  refine ⟨RegionParam.wellFounded_turn sv.params, ?_, ?_⟩
  · rw [hdecides]
    exact ⟨RegionParam.outlivesOrder_outlives sv.params, fun R hR a b => hR.of_outlives⟩
  · intro h p hp hbounds b
    refine RegionParam.outlives_iff.trans ⟨fun hpath => ?_, ?_⟩
    · -- no bound starts at the placeholder, and it is not the static region
      refine hpath.eq_of_forall_edge ?_ ?_
      · obtain ⟨q, n, rfl⟩ := h.exists_placeholder hp
        exact placeholder_ne_static q n
      · rintro ⟨r, x⟩ he rfl
        have hx := RegionParam.mem_boundsOf_iff.mpr he
        rw [hbounds] at hx
        cases hx
    · rintro rfl
      exact .refl b

/-- Three regions in a circle, with a bound on itself and a repeated one, and a placeholder `'^x0` next to
them. -/
def circle : RegionSolver :=
  ((({} : RegionSolver).declare [⟨⟨"'a"⟩, [⟨"'b"⟩, ⟨"'a"⟩, ⟨"'b"⟩]⟩, ⟨⟨"'b"⟩, [⟨"'c"⟩]⟩,
    ⟨⟨"'c"⟩, [⟨"'a"⟩]⟩]).1.enter (.ref ⟨"'x"⟩ false (.prim "u8")) [⟨"'x"⟩]).2.2

/-- Around the circle each region outlives each other one, and none outlives the placeholder. -/
theorem outlives_isLeast_of_circle :
    circle.Reachable ∧ ⟨"'^x0"⟩ ∈ circle.placeholders ∧
      RegionParam.boundsOf circle.params ⟨"'^x0"⟩ = [] ∧
      circle.outlives ⟨"'c"⟩ ⟨"'b"⟩ = true ∧ circle.outlives ⟨"'c"⟩ ⟨"'^x0"⟩ ≠ true ∧
      ∀ b, circle.outlives ⟨"'^x0"⟩ b = true ↔ b = ⟨"'^x0"⟩ := by
  have hreachable : circle.Reachable := ((Reachable.new 100).declare _).enter _ _
  have hplaceholder : ⟨"'^x0"⟩ ∈ circle.placeholders := by decide +kernel
  have hbounds : RegionParam.boundsOf circle.params ⟨"'^x0"⟩ = [] := by decide +kernel
  have hparams : circle.params = [⟨⟨"'a"⟩, [⟨"'b"⟩, ⟨"'a"⟩, ⟨"'b"⟩]⟩, ⟨⟨"'b"⟩, [⟨"'c"⟩]⟩,
    ⟨⟨"'c"⟩, [⟨"'a"⟩]⟩] := by decide +kernel
  obtain ⟨-, ⟨horder, hleast⟩, hself⟩ := outlives_isLeast circle
  refine ⟨hreachable, hplaceholder, hbounds, ?_, fun houtlives => ?_,
    hself hreachable _ hplaceholder hbounds⟩
  · refine horder.trans _ ⟨"'a"⟩ _ ?_ ?_
    · exact horder.bound ⟨⟨"'c"⟩, [⟨"'a"⟩]⟩ (by simp [hparams]) _ (by simp)
    · exact horder.bound ⟨⟨"'a"⟩, [⟨"'b"⟩, ⟨"'a"⟩, ⟨"'b"⟩]⟩ (by simp [hparams]) _ (by simp)
  · -- no bound leads from the circle to the placeholder or to the static region
    let apart : List Region := [⟨"'^x0"⟩, .static]
    have happart : RegionParam.OutlivesOrder circle.params fun x y => y ∈ apart → x ∈ apart := by
      refine ⟨fun _ => id, fun _ _ _ hab hbc => hab ∘ hbc, ?_, by simp [apart]⟩
      simp [hparams, apart, Region.static]
    have hc : ⟨"'c"⟩ ∈ apart := hleast happart ⟨"'c"⟩ ⟨"'^x0"⟩ houtlives List.mem_cons_self
    simp [apart, Region.static] at hc

end RegionSolver

end Generics
