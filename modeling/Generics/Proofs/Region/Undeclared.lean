import Generics.Proofs.Region.Offered

/-!
# Undeclared regions

A constraint should name only region variables, declared regions and placeholders. Whether it does
is asked when an outlives constraint is found to be between known regions, and at no other time. So
a region that is not declared gets through in two ways: a constraint decides a region variable to be
that region, or the region is required to be equal to one that stands for it already, such as
itself. It gets through in no other way, in whatever order the constraints stand and whatever was
solved before.

## Main results

* `RegionSolver.Kept`: what the operations of a solver keep;
* `RegionSolver.Kept.eq_of_outlives`: a region that is not named outlives only itself;
* `RegionSolver.Reachable.solve_names`: which regions the constraints name that are not left, and
  what region variables can stand for.
-/

namespace Generics.RegionSolver

variable {sv sv' : RegionSolver} {s : Subst} {c : RegionConstraint} {cs : List RegionConstraint}

/-! ## What a solver keeps -/

/-- Only region variables stand for others, and only declared regions have bounds. -/
structure Kept (sv : RegionSolver) : Prop where
  vars : ∀ v r, sv.resolution.lookup v = some r → v.isVariable = true
  edges : ∀ e ∈ RegionParam.edges sv.params, e.1 ∈ sv.declared
  static : .static ∈ sv.declared

theorem Kept.bind (h : sv.Kept) {v r : Region} (hv : sv.known v = none) : (sv.bind v r).Kept where
  vars w region hw := by
    rw [RegionSolver.bind, List.lookup_cons] at hw
    split at hw
    · rename_i hsame
      rw [eq_of_beq hsame]
      exact (known_eq_none_iff.mp hv).1
    · exact h.vars w region hw
  edges := h.edges
  static := h.static

theorem Grows.kept (hgrows : sv.Grows sv') (h : sv.Kept) : sv'.Kept := by
  induction hgrows with
  | refl => exact h
  | bind _ hv _ ih => exact ih.bind hv

/-- Region parameters are declared with their names. -/
theorem Kept.declare (h : sv.Kept) (params : List RegionParam) : (sv.declare params).1.Kept := by
  obtain ⟨accepted, variances, hsubset, hdeclare⟩ := exists_declare sv params
  rw [hdeclare]
  refine ⟨h.vars, fun e he => ?_, List.mem_append_left _ h.static⟩
  rw [RegionParam.edges, List.flatMap_append, List.mem_append] at he
  rcases he with he | he
  · exact List.mem_append_left _ (h.edges e he)
  · -- the name of a parameter is declared whether or not the parameter is accepted
    obtain ⟨p, hp, he⟩ := List.mem_flatMap.mp he
    obtain ⟨b, -, rfl⟩ := List.mem_map.mp he
    exact List.mem_append_right _ (List.mem_map_of_mem (hsubset hp))

/-- All operations of a solver keep this. -/
theorem Reachable.kept (h : sv.Reachable) : sv.Kept := by
  -- what an event does not touch is kept as it is
  induction h with
  | new limit => exact ⟨(by simp), (by simp [RegionParam.edges]), List.mem_cons_self⟩
  | declare _ params ih => exact ih.declare params
  | fresh _ ih => exact ⟨ih.vars, ih.edges, ih.static⟩
  | add _ _ ih => exact ⟨ih.vars, ih.edges, ih.static⟩
  | @enter sv _ t quantified ih =>
    obtain ⟨placeholders, henter⟩ := exists_enter sv t quantified
    rw [henter]
    exact ⟨ih.vars, ih.edges, ih.static⟩
  | @elide sv _ sig ih =>
    obtain ⟨filled, -, helide⟩ := exists_elide sv sig
    rw [helide]
    exact ⟨ih.vars, ih.edges, ih.static⟩
  | @solve sv _ s ih => exact (grows_solve sv s).kept ih
  | variance _ s r ih =>
    unfold RegionSolver.variance
    split
    · exact ih
    · exact ⟨ih.vars, ih.edges, ih.static⟩

/-! ## Regions that are not named -/

section Unnamed

variable {x y r : Region}

theorem isVariable_of_unnamed (h : sv.isNamed x = false) : x.isVariable = false := by
  simp only [isNamed, Bool.or_eq_false_iff] at h
  exact h.1.1

theorem notMem_declared_of_unnamed (h : sv.isNamed x = false) : x ∉ sv.declared := by
  simp only [isNamed, Bool.or_eq_false_iff, decide_eq_false_iff_not] at h
  exact h.1.2

/-- A region that is not named stands for itself. -/
theorem Kept.known_of_unnamed (h : sv.Kept) (hx : sv.isNamed x = false) : sv.known x = some x := by
  have hvariable := isVariable_of_unnamed hx
  cases hknown : sv.known x with
  | none =>
    rw [(known_eq_none_iff.mp hknown).1] at hvariable
    cases hvariable
  | some a =>
    rcases known_cases hknown with hlookup | ⟨-, rfl⟩
    · rw [h.vars x a hlookup] at hvariable
      cases hvariable
    · rfl

/-- A region that is not named outlives only itself. -/
theorem Kept.eq_of_outlives (h : sv.Kept) (hx : sv.isNamed x = false)
    (hpath : RegionParam.Outlives (RegionParam.edges sv.params) x y) : y = x := by
  have hdeclared := notMem_declared_of_unnamed hx
  refine hpath.eq_of_forall_edge ?_ ?_
  · rintro rfl
    exact hdeclared h.static
  · rintro e he rfl
    exact hdeclared (h.edges e he)

/-- A region that is not named gets through an outlives constraint only by deciding the other
region. -/
theorem Kept.decides_of_unnamed (h : sv.Kept) (hx : sv.isNamed x = false)
    (hc : c = .outlives x y ∨ c = .outlives y x) {o : Outcome} (hexamine : sv.examine s c = .ok o) :
    sv.known y = none ∧ o = .decides y x := by
  have hknown := h.known_of_unnamed hx
  cases hy : sv.known y with
  | none =>
    have hjoins : Joins c y x := hc.elim (.inr ∘ .inl) .inl
    have hdecides := examine_of_joins (s := s) hjoins hy hknown
    exact ⟨rfl, Except.ok.inj (hexamine.symm.trans hdecides)⟩
  | some b =>
    -- both regions are known, so the look asks for their names
    exfalso
    rcases hc with rfl | rfl
    · rw [(isNamed_of_examine hknown hy hexamine).1] at hx
      cases hx
    · rw [(isNamed_of_examine hy hknown hexamine).2] at hx
      cases hx

/-- A region that is not named is equal only to regions that stand for it. -/
theorem Kept.known_of_equal (h : sv.Kept) (hx : sv.isNamed x = false)
    (hc : c = .equal x y ∨ c = .equal y x) (hholds : sv.Holds c) : sv.known y = some x := by
  have houtlive : sv.Outlive x y := by
    rcases hc with rfl | rfl
    · exact hholds.1
    · exact hholds.2
  obtain ⟨a, b, ha, hb, hpath⟩ := houtlive
  obtain rfl : a = x := Option.some.inj (ha.symm.trans (h.known_of_unnamed hx))
  rw [hb, h.eq_of_outlives hx hpath]

/-- Where a constraint with a region that is not named has been looked at for good, the other region
stands for it. -/
theorem Kept.known_of_passed (h : sv.Kept) (hx : sv.isNamed x = false) (hjoins : Joins c x y)
    (hpassed : Passed sv sv' s c) :
    sv'.known y = some x ∧ (c = .outlives x y ∨ c = .outlives y x → sv.known y = none) := by
  by_cases hc : c = .outlives x y ∨ c = .outlives y x
  · obtain ⟨sv₁, o, hgrows, hexamine, -, hgrows'⟩ := hpassed
    have hunnamed : sv₁.isNamed x = false := (hgrows.isNamed_eq x).trans hx
    obtain ⟨hy, rfl⟩ := (hgrows.kept h).decides_of_unnamed hunnamed hc hexamine
    refine ⟨hgrows'.known (known_bind_self y x), fun _ => ?_⟩
    exact known_eq_none_iff.mpr ((known_eq_none_iff.mp hy).of_grows hgrows)
  · -- names are not asked for here, but the regions have to outlive each other
    have hequal : c = .equal x y ∨ c = .equal y x := by
      rcases hjoins with houtlives | houtlives | hequal
      · exact absurd (.inl houtlives) hc
      · exact absurd (.inr houtlives) hc
      · exact hequal
    have hgrows := hpassed.grows
    rcases hpassed.holds with hholds | ⟨type, region, rfl, -⟩
    · have hunnamed : sv'.isNamed x = false := (hgrows.isNamed_eq x).trans hx
      exact ⟨(hgrows.kept h).known_of_equal hunnamed hequal hholds, fun hc' => absurd hc' hc⟩
    · rcases hequal with hequal | hequal <;> cases hequal

end Unnamed

/-! ## Where decided regions come from -/

/-- What a region variable is decided to be was so decided before, or it stands in a constraint. -/
theorem Kept.exists_source (h : sv.Kept) {result : Except Error RegionSolution}
    (hsolve : sv.solve s = (sv', result)) {v r : Region} (hv : sv'.resolution.lookup v = some r) :
    (∃ w, sv.resolution.lookup w = some r) ∨
      ∃ c ∈ queue s sv.constraints, ∃ y, Joins c r y := by
  have hvariable := ((grows_of_solve hsolve).kept h).vars v r hv
  have hknown : sv'.known v = some r := by rw [known, hv]
  rcases known_or_offered hsolve hknown with hbefore | hoffered
  · -- what stands for itself is no region variable, and `v` is one
    rcases known_cases hbefore with hlookup | ⟨hnot, -⟩
    · exact .inl ⟨v, hlookup⟩
    · rw [hvariable] at hnot
      cases hnot
  · obtain ⟨c, hc, x, y, hjoins, hx⟩ := hoffered.exists_source
    rcases known_cases hx with hlookup | ⟨-, rfl⟩
    · exact .inl ⟨x, hlookup⟩
    · exact .inr ⟨c, hc, y, hjoins⟩

theorem lookup_of_mem_resolved {pending : List RegionConstraint} {iterations : Nat}
    {v r : Region} (h : (v, r) ∈ (sv.solution pending iterations).resolved) :
    sv.resolution.lookup v = some r := by
  obtain ⟨w, -, hw⟩ := List.mem_filterMap.mp h
  obtain ⟨region, hlookup, hpair⟩ := Option.map_eq_some_iff.mp hw
  cases hpair
  exact hlookup

/-! ## Undeclared regions -/

/-- If a constraint that is not left names a region that is neither a region variable nor declared
nor a placeholder, the other region of the constraint stands for it; in an outlives constraint that
is a region variable that this solving decided. What a region variable is resolved to is declared, a
placeholder or such a region. Either an earlier solving has decided some region variable to be it,
or it stands in one of the constraints that are not left. -/
theorem Reachable.solve_names {sol : RegionSolution} (h : sv.Reachable)
    (hsolve : sv.solve s = (sv', .ok sol)) :
    (∀ c ∈ sv.constraints, ∀ part ∈ parts s c, part ∉ sol.pending →
      ∀ x y, Joins part x y → sv.isNamed x = false →
        sv'.known y = some x ∧
          (part = .outlives x y ∨ part = .outlives y x → sv.known y = none)) ∧
    ∀ v r, (v, r) ∈ sol.resolved →
      (r ∈ sv.declared ∨ r ∈ sv.placeholders ∨ sv.isNamed r = false) ∧
        ((∃ w, sv.resolution.lookup w = some r) ∨
          ∃ c ∈ sv.constraints, ∃ part ∈ parts s c, part ∉ sol.pending ∧ ∃ y, Joins part r y) := by
  obtain ⟨k, -, hrounds, hsol⟩ := exists_rounds_of_solve_ok hsolve
  refine ⟨fun c hc part hpart hleft x y hjoins hx => ?_, fun v r hr => ?_⟩
  · have hmem := mem_queue_of_mem_parts hc hpart
    exact h.kept.known_of_passed hx hjoins ((hrounds.passed rfl part hmem).resolve_left hleft)
  · rw [hsol] at hr
    have hlookup := lookup_of_mem_resolved hr
    have hvariable : r.isVariable = false := hrounds.grows.direct h.direct v r hlookup
    refine ⟨?_, ?_⟩
    · simp only [isNamed, hvariable, Bool.false_or, Bool.or_eq_false_iff, decide_eq_false_iff_not]
      tauto
    · refine (h.kept.exists_source hsolve hlookup).imp_right ?_
      rintro ⟨part, hmem, y, hjoins⟩
      obtain ⟨c, hc, hpart⟩ := exists_mem_parts_of_joins hmem hjoins
      refine ⟨c, hc, part, hpart, fun hleft => ?_, y, hjoins⟩
      -- what is left is between region variables
      rw [((hrounds.undecided hleft).isUnresolved hjoins).1] at hvariable
      cases hvariable

/-- A solver in which `'a` is declared and `'x` is not. One region variable is required to equal
`'x` and another one to be outlived by `'a`. -/
def undeclaredOnce : RegionSolver :=
  let sv := (({} : RegionSolver).declare [⟨⟨"'a"⟩, []⟩]).1
  sv.fresh.2.fresh.2.add [.equal ⟨"'_0"⟩ ⟨"'x"⟩, .outlives ⟨"'a"⟩ ⟨"'_1"⟩]

theorem reachable_undeclaredOnce : undeclaredOnce.Reachable :=
  ((((Reachable.new 100).declare _).fresh).fresh).add _

/-- `'_0` stands for `'x`, and `'_1` for `'a`, which is declared. -/
theorem Reachable.solve_names_of_undeclaredOnce :
    ∃ (sv' : RegionSolver) (sol : RegionSolution), undeclaredOnce.Reachable ∧
      undeclaredOnce.solve .empty = (sv', .ok sol) ∧
      sol.resolved = [(⟨"'_0"⟩, ⟨"'x"⟩), (⟨"'_1"⟩, ⟨"'a"⟩)] ∧
      undeclaredOnce.isNamed ⟨"'x"⟩ = false ∧ sv'.known ⟨"'_0"⟩ = some ⟨"'x"⟩ ∧
      ((⟨"'a"⟩ : Region) ∈ undeclaredOnce.declared ∨
        (⟨"'a"⟩ : Region) ∈ undeclaredOnce.placeholders ∨
        undeclaredOnce.isNamed ⟨"'a"⟩ = false) := by
  let sv' : RegionSolver :=
    { undeclaredOnce with resolution := [(⟨"'_1"⟩, ⟨"'a"⟩), (⟨"'_0"⟩, ⟨"'x"⟩)] }
  let sol : RegionSolution := ⟨[(⟨"'_0"⟩, ⟨"'x"⟩), (⟨"'_1"⟩, ⟨"'a"⟩)], [], [], 1⟩
  have hsolve : undeclaredOnce.solve .empty = (sv', .ok sol) := by cbv
  have hunnamed : undeclaredOnce.isNamed ⟨"'x"⟩ = false := by cbv
  obtain ⟨hslips, hresolved⟩ := reachable_undeclaredOnce.solve_names hsolve
  have hmem : .equal ⟨"'_0"⟩ ⟨"'x"⟩ ∈ undeclaredOnce.constraints := List.mem_cons_self
  have hknown := (hslips _ hmem _ (List.mem_singleton_self _) List.not_mem_nil ⟨"'x"⟩ ⟨"'_0"⟩
    (.inr (.inr (.inr rfl))) hunnamed).1
  have hnamed := (hresolved ⟨"'_1"⟩ ⟨"'a"⟩ (List.mem_cons_of_mem _ List.mem_cons_self)).1
  exact ⟨sv', sol, reachable_undeclaredOnce, hsolve, rfl, hunnamed, hknown, hnamed⟩

/-- A region that is not declared is accepted where it decides a region variable, which then stands
for it, and where it is required to be equal to itself. -/
theorem exists_solve_undeclared :
    (∃ (sv sv' : RegionSolver) (sol : RegionSolution), sv.Reachable ∧
      sv.isNamed ⟨"'x"⟩ = false ∧ sv.constraints = [.outlives ⟨"'x"⟩ ⟨"'_0"⟩] ∧
      sv.solve .empty = (sv', .ok sol) ∧ sol.pending = [] ∧
      sol.resolved = [(⟨"'_0"⟩, ⟨"'x"⟩)]) ∧
    ∃ (sv sv' : RegionSolver) (sol : RegionSolution), sv.Reachable ∧
      sv.isNamed ⟨"'x"⟩ = false ∧ sv.constraints = [.equal ⟨"'x"⟩ ⟨"'x"⟩] ∧
      sv.solve .empty = (sv', .ok sol) ∧ sol.pending = [] := by
  refine ⟨?_, ?_⟩
  · let sv : RegionSolver := ({} : RegionSolver).fresh.2.add [.outlives ⟨"'x"⟩ ⟨"'_0"⟩]
    have hreachable : sv.Reachable := ((Reachable.new 100).fresh).add _
    exact ⟨sv, { sv with resolution := [(⟨"'_0"⟩, ⟨"'x"⟩)] }, ⟨[(⟨"'_0"⟩, ⟨"'x"⟩)], [], [], 1⟩,
      hreachable, by cbv, rfl, by cbv, rfl, rfl⟩
  · let sv : RegionSolver := ({} : RegionSolver).add [.equal ⟨"'x"⟩ ⟨"'x"⟩]
    have hreachable : sv.Reachable := (Reachable.new 100).add _
    exact ⟨sv, sv, ⟨[], [], [], 1⟩, hreachable, by cbv, rfl, by cbv, rfl⟩

end Generics.RegionSolver
