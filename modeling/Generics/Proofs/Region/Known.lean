import Generics.Region.Solver

/-!
# What a region solver knows

Solving decides a region variable only if nothing has decided it before, and only to be a region
that is known itself. So what is known stays known, and a constraint that was found to hold holds
for good.

## Main results

* `RegionParam.turned`: what a turn of a search along the bounds can come to;
* `RegionParam.outlives_sound`: what is found to outlive follows from the declared bounds;
* `RegionSolver.Grows`: region variables are decided one after the other;
* `RegionSolver.examined`: what becomes of a constraint when it is looked at;
* `RegionSolver.grows_solve`: solving decides region variables and does nothing else, also when it
  fails.
-/

namespace Generics

/-! ## What follows from declared bounds -/

namespace RegionParam

/-- The regions that are new are met and go to the front of the frontier. -/
theorem Search.exists_foldl_meet (rs : List Region) (s : Search) :
    ∃ new, new ⊆ rs ∧ rs ⊆ new ++ s.visited ∧
      rs.foldl meet s = ⟨new ++ s.visited, new ++ s.frontier⟩ := by
  induction rs generalizing s with
  | nil => exact ⟨[], List.Subset.refl _, List.nil_subset _, rfl⟩
  | cons r rs ih =>
    obtain ⟨new, hnew, hmet, hfold⟩ := ih (s.meet r)
    rw [List.foldl_cons, hfold]
    unfold meet at hmet ⊢
    split at hmet
    · rename_i hr
      refine ⟨new, List.subset_cons_of_subset r hnew, ?_, by rw [if_pos hr]⟩
      exact List.cons_subset.mpr ⟨List.mem_append_right new hr, hmet⟩
    · -- the region is new, and the others that are new are met after it
      rename_i hr
      refine ⟨new ++ [r], ?_, ?_, by simp [hr]⟩
      · refine List.append_subset.mpr ⟨List.subset_cons_of_subset r hnew, ?_⟩
        exact List.cons_subset.mpr ⟨List.mem_cons_self, List.nil_subset _⟩
      · rw [List.append_assoc, List.singleton_append]
        exact List.cons_subset.mpr ⟨List.mem_append_right new List.mem_cons_self, hmet⟩

/-- What a turn of a search can come to. -/
inductive Turned (params : List RegionParam) (b : Region) (s : Search) : Turn → Prop
  | exhausted (hfrontier : s.frontier = []) : Turned params b s .exhausted
  | found {r x : Region} {frontier : List Region} (hfrontier : s.frontier = r :: frontier)
      (hx : (r, x) ∈ edges params) (hstop : x = b ∨ x = .static) : Turned params b s .found
  | next {r : Region} {frontier new : List Region} (hfrontier : s.frontier = r :: frontier)
      (hgo : ∀ x, (r, x) ∈ edges params → x ≠ b ∧ x ≠ .static ∧ x ∈ new ++ s.visited)
      (hnew : ∀ x ∈ new, (r, x) ∈ edges params) :
      Turned params b s (.next ⟨new ++ s.visited, new ++ frontier⟩)

/-- Every turn comes to one of these. -/
theorem turned (params : List RegionParam) (b : Region) (s : Search) :
    Turned params b s (turn params b s) := by
  unfold turn
  split
  · rename_i hfrontier
    exact .exhausted hfrontier
  · rename_i r frontier hfrontier
    dsimp only
    split
    · rename_i hstop
      rcases hstop with hb | hstatic
      · exact .found hfrontier (mem_boundsOf_iff.mp hb) (.inl rfl)
      · exact .found hfrontier (mem_boundsOf_iff.mp hstatic) (.inr rfl)
    · rename_i hgo
      rw [not_or] at hgo
      obtain ⟨new, hnew, hmet, hfold⟩ :=
        Search.exists_foldl_meet (boundsOf params r) { s with frontier }
      rw [hfold]
      refine .next hfrontier (fun x hx => ?_) fun x hx => mem_boundsOf_iff.mp (hnew hx)
      have hbound := mem_boundsOf_iff.mpr hx
      refine ⟨?_, ?_, hmet hbound⟩
      · rintro rfl
        exact hgo.1 hbound
      · rintro rfl
        exact hgo.2 hbound

theorem turned_of_eq {params : List RegionParam} {b : Region} {s : Search} {t : Turn}
    (h : turn params b s = t) : Turned params b s t := h ▸ turned params b s

/-- A search finds only what is outlived, if the regions of its frontier are. -/
theorem search_sound {params : List RegionParam} {a b : Region} {s : Search}
    (hfrontier : ∀ r ∈ s.frontier, Outlives (edges params) a r)
    (h : search params b s = true) : Outlives (edges params) a b := by
  fun_induction search params b s with
  | case1 s hturn =>
    cases turned_of_eq hturn with
    | @found r x frontier hr hx hstop =>
      have hpath : Outlives (edges params) a x := (hfrontier r (by simp [hr])).trans (.bound hx)
      rcases hstop with rfl | rfl
      · exact hpath
      · exact hpath.trans (.static b)
  | case2 s hturn => cases h
  | case3 s s' hturn _ ih =>
    cases turned_of_eq hturn with
    | @next r frontier new hr hgo hnew =>
      refine ih (fun x hx => ?_) h
      rcases List.mem_append.mp hx with hx | hx
      · exact (hfrontier r (by simp [hr])).trans (.bound (hnew x hx))
      · exact hfrontier x (by simp [hr, hx])

/-- What is found to outlive follows from the declared bounds. -/
theorem outlives_sound {params : List RegionParam} {a b : Region}
    (h : outlives params a b = true) : Outlives (edges params) a b := by
  simp only [outlives, Bool.or_eq_true, decide_eq_true_eq] at h
  rcases h with (rfl | rfl) | hsearch
  · exact .refl a
  · exact .static b
  · refine search_sound (fun r hr => ?_) hsearch
    rw [List.mem_singleton.mp hr]
    exact .refl a

end RegionParam

namespace RegionSolver

variable {sv sv' : RegionSolver}

/-! ## What is known -/

/-- The region is a region variable that nothing has decided. -/
def IsUnresolved (sv : RegionSolver) (r : Region) : Prop :=
  r.isVariable = true ∧ sv.resolution.lookup r = none

/-- Just the unresolved regions are not known. -/
theorem known_eq_none_iff {r : Region} : sv.known r = none ↔ sv.IsUnresolved r := by
  unfold known IsUnresolved
  cases sv.resolution.lookup r with
  | some resolved => simp
  | none => simp

/-- A region that is known stands for another one, or it is not a region variable. -/
theorem known_cases {x r : Region} (h : sv.known x = some r) :
    sv.resolution.lookup x = some r ∨ x.isVariable = false ∧ r = x := by
  unfold known at h
  split at h
  · rename_i resolved hlookup
    exact .inl (hlookup.trans h)
  · split at h
    · cases h
    · rename_i hvariable
      exact .inr ⟨Bool.eq_false_iff.mpr hvariable, (Option.some.inj h).symm⟩

/-- No region variable stands for another one. -/
def Direct (sv : RegionSolver) : Prop :=
  ∀ v r, sv.resolution.lookup v = some r → r.isVariable = false

/-- What a region is known to be is not a region variable. -/
theorem Direct.isVariable_of_known (h : sv.Direct) {x r : Region} (hx : sv.known x = some r) :
    r.isVariable = false := by
  rcases known_cases hx with hlookup | ⟨hvariable, rfl⟩
  · exact h x r hlookup
  · exact hvariable

/-- The solver with one more region variable decided. -/
def bind (sv : RegionSolver) (v r : Region) : RegionSolver :=
  { sv with resolution := (v, r) :: sv.resolution }

@[simp] theorem known_bind_self (v r : Region) : (sv.bind v r).known v = some r := by
  simp [known, bind]

/-- Deciding one region variable leaves the others as they are. -/
theorem known_bind_of_ne {v r x : Region} (hne : x ≠ v) : (sv.bind v r).known x = sv.known x := by
  have hlookup : (sv.bind v r).resolution.lookup x = sv.resolution.lookup x := by
    rw [bind, List.lookup_cons, beq_false_of_ne hne]
  rw [known, known, hlookup]

/-- Deciding a region variable to be another region keeps the solver direct. -/
theorem Direct.bind (h : sv.Direct) {v r : Region} (hr : r.isVariable = false) :
    (sv.bind v r).Direct := by
  intro w region hw
  rw [RegionSolver.bind, List.lookup_cons] at hw
  split at hw
  · obtain rfl := Option.some.inj hw
    exact hr
  · exact h w region hw

/-! ## Deciding region variables -/

/-- The second solver is the first one with region variables decided one after the other, each to be
a region that was known by then. -/
inductive Grows (sv : RegionSolver) : RegionSolver → Prop
  | refl : Grows sv sv
  | bind {sv' : RegionSolver} {v r x : Region} (h : Grows sv sv') (hv : sv'.known v = none)
      (hx : sv'.known x = some r) : Grows sv (sv'.bind v r)

/-- Growing further is growing. -/
theorem Grows.trans {sv'' : RegionSolver} (h : sv.Grows sv') (h' : sv'.Grows sv'') :
    sv.Grows sv'' := by
  induction h' with
  | refl => exact h
  | bind _ hv hx ih => exact ih.bind hv hx

/-- Nothing but what is decided changes. -/
theorem Grows.exists_eq (h : sv.Grows sv') :
    ∃ resolution, sv' = { sv with resolution := resolution } := by
  induction h with
  | refl => exact ⟨sv.resolution, rfl⟩
  | bind _ _ _ ih =>
    obtain ⟨resolution, rfl⟩ := ih
    exact ⟨_, rfl⟩

/-- The declared bounds stay. -/
theorem Grows.params_eq (h : sv.Grows sv') : sv'.params = sv.params := by
  obtain ⟨resolution, rfl⟩ := h.exists_eq
  rfl

/-- What is known stays known. -/
theorem Grows.known (h : sv.Grows sv') {x r : Region} (hx : sv.known x = some r) :
    sv'.known x = some r := by
  induction h with
  | refl => exact hx
  | @bind sv' v _ _ _ hv _ ih =>
    -- the variable decided was not known, so it is another region
    have hne : x ≠ v := by
      rintro rfl
      rw [ih] at hv
      cases hv
    rw [known_bind_of_ne hne]
    exact ih

/-- A direct solver stays direct. -/
theorem Grows.direct (h : sv.Grows sv') (hsv : sv.Direct) : sv'.Direct := by
  induction h with
  | refl => exact hsv
  | bind _ _ hx ih => exact ih.bind (ih.isVariable_of_known hx)

/-! ## Constraints that hold -/

/-- Both regions are known, and what the first stands for outlives what the second stands for. -/
def Outlive (sv : RegionSolver) (longer shorter : Region) : Prop :=
  ∃ a b, sv.known longer = some a ∧ sv.known shorter = some b ∧
    RegionParam.Outlives (RegionParam.edges sv.params) a b

/-- What outlives another region goes on to. -/
theorem Outlive.grows {longer shorter : Region} (h : sv.Outlive longer shorter)
    (hgrows : sv.Grows sv') : sv'.Outlive longer shorter := by
  obtain ⟨a, b, ha, hb, hab⟩ := h
  refine ⟨a, b, hgrows.known ha, hgrows.known hb, ?_⟩
  rwa [hgrows.params_eq]

/-- Regions that stand for the same region outlive each other. -/
theorem outlive_of_known_eq {longer shorter r : Region} (hlonger : sv.known longer = some r)
    (hshorter : sv.known shorter = some r) : sv.Outlive longer shorter :=
  ⟨r, r, hlonger, hshorter, .refl r⟩

/-- The constraint between regions holds. A constraint on a type does not hold as it stands: it
comes down to constraints between regions. -/
def Holds (sv : RegionSolver) : RegionConstraint → Prop
  | .outlives longer shorter => sv.Outlive longer shorter
  | .equal a b => sv.Outlive a b ∧ sv.Outlive b a
  | .typeOutlives _ _ => False

/-- A constraint that holds goes on to. -/
theorem Holds.grows {c : RegionConstraint} (h : sv.Holds c) (hgrows : sv.Grows sv') :
    sv'.Holds c := by
  cases c with
  | outlives longer shorter => exact Outlive.grows h hgrows
  | equal a b => exact ⟨Outlive.grows h.1 hgrows, Outlive.grows h.2 hgrows⟩
  | typeOutlives type region => exact h.elim

/-- Nothing can be said of the constraint yet. -/
def Undecided (sv : RegionSolver) (s : Subst) : RegionConstraint → Prop
  | .outlives longer shorter => sv.IsUnresolved longer ∧ sv.IsUnresolved shorter
  | .equal a b => sv.IsUnresolved a ∧ sv.IsUnresolved b
  | .typeOutlives type _ => (s.apply type).vars ≠ []

/-- What can become of a constraint when it is looked at, and what that means. -/
inductive Examined (sv : RegionSolver) (s : Subst) : RegionConstraint → Outcome → Prop
  | waits {c : RegionConstraint} (h : sv.Undecided s c) : Examined sv s c .waits
  | holds {c : RegionConstraint} (h : sv.Holds c) : Examined sv s c .holds
  | decides {c : RegionConstraint} {v r x : Region} (hv : sv.known v = none)
      (hx : sv.known x = some r) (h : (sv.bind v r).Holds c) : Examined sv s c (.decides v r)
  | expands {type : Ty} {region : Region} (hground : (s.apply type).isGround = true) :
      Examined sv s (.typeOutlives type region)
        (.expands ((s.apply type).regions.map fun r => .outlives r region))

/-- A region variable decided to be a known region and that region outlive each other. -/
theorem outlive_bind {v r x : Region} (hv : sv.known v = none) (hx : sv.known x = some r) :
    (sv.bind v r).Outlive v x ∧ (sv.bind v r).Outlive x v := by
  have hgrows : sv.Grows (sv.bind v r) := Grows.refl.bind hv hx
  have hv' : (sv.bind v r).known v = some r := known_bind_self v r
  exact ⟨outlive_of_known_eq hv' (hgrows.known hx), outlive_of_known_eq (hgrows.known hx) hv'⟩

/-- Looking at a constraint says one of these things, or fails. -/
theorem examined {s : Subst} {c : RegionConstraint} {o : Outcome} (h : sv.examine s c = .ok o) :
    sv.Examined s c o := by
  cases c with
  | outlives longer shorter =>
    -- both regions known, one of them, or none
    rw [examine] at h
    split at h
    · rename_i a b ha hb
      split at h
      · cases h
      · split at h
        · rename_i hab
          cases h
          exact .holds ⟨a, b, ha, hb, RegionParam.outlives_sound hab⟩
        · cases h
    · rename_i a ha hb
      cases h
      exact .decides hb ha (outlive_bind hb ha).2
    · rename_i b ha hb
      cases h
      exact .decides ha hb (outlive_bind ha hb).1
    · rename_i ha hb
      cases h
      exact .waits ⟨known_eq_none_iff.mp ha, known_eq_none_iff.mp hb⟩
  | equal x y =>
    rw [examine] at h
    split at h
    · rename_i a b ha hb
      split at h
      · rename_i hab
        cases h
        rw [Bool.and_eq_true] at hab
        exact .holds ⟨⟨a, b, ha, hb, RegionParam.outlives_sound hab.1⟩,
          ⟨b, a, hb, ha, RegionParam.outlives_sound hab.2⟩⟩
      · cases h
    · rename_i a ha hb
      cases h
      exact .decides hb ha (outlive_bind hb ha).symm
    · rename_i b ha hb
      cases h
      exact .decides ha hb (outlive_bind ha hb)
    · rename_i ha hb
      cases h
      exact .waits ⟨known_eq_none_iff.mp ha, known_eq_none_iff.mp hb⟩
  | typeOutlives type region =>
    simp only [examine] at h
    split at h
    · rename_i hground
      cases h
      exact .expands hground
    · rename_i hground
      cases h
      exact .waits fun hvars => hground (Ty.isGround_iff.mpr hvars)

/-! ## What solving does to a solver -/

/-- The solver after a look at a constraint. -/
def heed (sv : RegionSolver) : Outcome → RegionSolver
  | .waits => sv
  | .holds => sv
  | .decides v r => sv.bind v r
  | .expands _ => sv

/-- Heeding a look at a constraint decides at most one region variable. -/
theorem Examined.grows_heed {s : Subst} {c : RegionConstraint} {o : Outcome}
    (h : sv.Examined s c o) : sv.Grows (sv.heed o) := by
  cases h with
  | waits => exact .refl
  | holds => exact .refl
  | decides hv hx => exact .bind .refl hv hx
  | expands => exact .refl

/-- The pass after a constraint was looked at. -/
def Pass.after (p : Pass) (c : RegionConstraint) : Outcome → Pass
  | .waits => { p with waiting := p.waiting ++ [c] }
  | .holds => { p with decided := true }
  | .decides v r => { p with solver := p.solver.bind v r, decided := true }
  | .expands new => { p with expanded := p.expanded ++ new, decided := true }

/-- Of a look, only what it decides changes the solver. -/
theorem solver_after (p : Pass) (c : RegionConstraint) (o : Outcome) :
    (p.after c o).solver = p.solver.heed o := by
  cases o <;> rfl

/-- A constraint that is looked at is heeded before the next one. -/
theorem over_cons_of_ok {s : Subst} {p : Pass} {c : RegionConstraint} {o : Outcome}
    (h : p.solver.examine s c = .ok o) (cs : List RegionConstraint) :
    Pass.over s p (c :: cs) = Pass.over s (p.after c o) cs := by
  rw [Pass.over, h]
  cases o <;> rfl

/-- A constraint that fails ends the pass. -/
theorem over_cons_of_error {s : Subst} {p : Pass} {c : RegionConstraint} {e : Error}
    (h : p.solver.examine s c = .error e) (cs : List RegionConstraint) :
    Pass.over s p (c :: cs) = (p, .error e) := by
  rw [Pass.over, h]

/-- A look at a constraint makes the solver grow. -/
theorem Examined.grows_after {s : Subst} {p : Pass} {c : RegionConstraint} {o : Outcome}
    (h : p.solver.Examined s c o) : p.solver.Grows (p.after c o).solver := by
  rw [solver_after]
  exact h.grows_heed

/-- Going over constraints makes the solver grow. -/
theorem grows_over (s : Subst) (p : Pass) (cs : List RegionConstraint) :
    p.solver.Grows (Pass.over s p cs).1.solver := by
  induction cs generalizing p with
  | nil => exact .refl
  | cons c cs ih =>
    cases hexamine : p.solver.examine s c with
    | error e =>
      rw [over_cons_of_error hexamine]
      exact .refl
    | ok o =>
      rw [over_cons_of_ok hexamine]
      exact (examined hexamine).grows_after.trans (ih _)

/-- A pass makes the solver grow. -/
theorem grows_pass (sv : RegionSolver) (s : Subst) (cs : List RegionConstraint) :
    sv.Grows (sv.pass s cs).1.solver := by
  have hfirst := grows_over s { solver := sv } cs
  unfold pass
  split
  · rename_i p e hover
    rwa [hover] at hfirst
  · rename_i p hover
    rw [hover] at hfirst
    exact hfirst.trans (grows_over s { p with expanded := [] } p.expanded)

/-- Any number of passes make the solver grow. -/
theorem grows_passes (s : Subst) (sv : RegionSolver) (count : Nat) (cs : List RegionConstraint)
    (remaining : Nat) : sv.Grows (passes s sv count cs remaining).1 := by
  induction remaining generalizing sv count cs with
  | zero =>
    unfold passes
    split
    · exact .refl
    · exact .refl
  | succ remaining ih =>
    have hpass := grows_pass sv s cs
    unfold passes
    split
    · exact .refl
    · split
      · rename_i hrun
        rwa [hrun] at hpass
      · rename_i hrun
        rw [hrun] at hpass
        split
        · exact hpass.trans (ih _ _ _)
        · exact hpass

/-- Solving decides region variables and does nothing else, also when it fails. -/
theorem grows_solve (sv : RegionSolver) (s : Subst) : sv.Grows (sv.solve s).1 := by
  have hpasses := grows_passes s sv 0 sv.constraints sv.limit.toNat
  unfold solve
  split
  · rename_i hrun
    rwa [hrun] at hpasses
  · rename_i hrun
    rwa [hrun] at hpasses

/-- Solving makes the solver grow, also when it fails. -/
theorem grows_of_solve {s : Subst} {result : Except Error RegionSolution}
    (h : sv.solve s = (sv', result)) : sv.Grows sv' := by
  have hgrows := grows_solve sv s
  rwa [h] at hgrows

/-! ## What the other operations change -/

/-- Declaring adds some of the region parameters, each if it is accepted. -/
theorem exists_accept (sv : RegionSolver) (params : List RegionParam) :
    ∃ accepted variances, accepted ⊆ params ∧ (sv.accept params).1 =
      { sv with params := sv.params ++ accepted, variances := variances } := by
  induction params generalizing sv with
  | nil => exact ⟨[], [], List.nil_subset _, by simp [accept]⟩
  | cons p ps ih =>
    unfold accept
    split
    · exact ⟨[], sv.variances, List.nil_subset _, by simp⟩
    · obtain ⟨accepted, variances, hsubset, haccept⟩ := ih { sv with params := sv.params ++ [p] }
      refine ⟨p :: accepted, variances, List.cons_subset_cons p hsubset, ?_⟩
      rw [haccept, List.append_assoc, List.singleton_append]

/-- Making placeholders changes the placeholders only. -/
theorem exists_placehold (sv : RegionSolver) (quantified : List Region) :
    ∃ placeholders, (sv.placehold quantified).2 = { sv with placeholders := placeholders } := by
  induction quantified generalizing sv with
  | nil => exact ⟨sv.placeholders, rfl⟩
  | cons q qs ih => exact ih _

/-- Entering a quantified type changes the placeholders only. -/
theorem exists_enter (sv : RegionSolver) (t : Ty) (quantified : List Region) :
    ∃ placeholders, (sv.enter t quantified).2.2 = { sv with placeholders := placeholders } :=
  exists_placehold sv quantified

/-- Declaring adds the names of all parameters, and those of them that are accepted with their
bounds. -/
theorem exists_declare (sv : RegionSolver) (params : List RegionParam) :
    ∃ accepted variances, accepted ⊆ params ∧ (sv.declare params).1 =
      { sv with declared := sv.declared ++ params.map RegionParam.name
                params := sv.params ++ accepted, variances := variances } :=
  exists_accept { sv with declared := sv.declared ++ params.map RegionParam.name } params

end RegionSolver

end Generics
