import Generics.Proofs.Region.Offered

/-!
# The order of constraints

A region variable keeps the first region that it is offered, so the order of the constraints can
decide whether a later one holds. It matters in no other way, except that names are asked for only
where both regions of an outlives constraint are known already. Two orders of which one succeeds and
the other one fails have decided some region variable to be regions that do not outlive each other,
or the failure is about a region that is not named. What is left does not depend on the order at
all.

## Main results

* `RegionSolver.Coincide`: regions that outlive each other;
* `RegionSolver.Refused.exists_differ`: why a constraint fails in one solver and holds in another;
* `RegionSolver.Reordered.exists_known`: what some order decides, each order that succeeds decides;
* `RegionSolver.Reordered.exists_differ`: why solving fails in one order and succeeds in another;
* `RegionSolver.solve_of_perm`: what the order of constraints can change.
-/

namespace Generics.RegionSolver

variable {sv sv' sv₁ sv₂ sv₁' sv₂' : RegionSolver} {s : Subst} {c : RegionConstraint}
  {cs₁ cs₂ pending : List RegionConstraint} {k k₂ : Nat} {e : Error} {v : Region}
  {result : Except Error RegionSolution}

/-! ## Regions that coincide -/

/-- The regions outlive each other by the declared bounds. -/
def Coincide (sv : RegionSolver) (a b : Region) : Prop :=
  RegionParam.Outlives (RegionParam.edges sv.params) a b ∧
    RegionParam.Outlives (RegionParam.edges sv.params) b a

theorem Coincide.refl (sv : RegionSolver) (a : Region) : sv.Coincide a a := ⟨.refl a, .refl a⟩

/-- What outlives stays so when the regions are replaced by ones that coincide with them. -/
theorem Outlive.path_of_coincide {x y b b' : Region} (h : sv₁.Outlive x y)
    (hparams : sv₂.params = sv₁.params) (hx : sv₂.known x = some b) (hy : sv₂.known y = some b')
    (hcoincide : ∀ z a b, sv₁.known z = some a → sv₂.known z = some b → sv₁.Coincide a b) :
    RegionParam.Outlives (RegionParam.edges sv₂.params) b b' := by
  obtain ⟨a, a', ha, ha', hpath⟩ := h
  rw [hparams]
  exact .trans (hcoincide x a b ha hx).2 (.trans hpath (hcoincide y a' b' ha' hy).1)

/-! ## One constraint in two solvers -/

/-- The failure is about a region that is not named. -/
def IsUnnamed (sv : RegionSolver) (e : Error) : Prop :=
  ∃ a b : Region, ¬ (sv.isNamed a = true ∧ sv.isNamed b = true) ∧
    e = .unknownLifetimeBound a.name b.name

/-- A constraint that fails in one solver and holds in another one with the same bounds is about a
region that is not named, or one of its regions stands for regions that do not coincide. -/
theorem Refused.exists_differ (h : sv₂.Refused c e) (hholds : sv₁.Holds c)
    (hparams : sv₂.params = sv₁.params) :
    sv₂.IsUnnamed e ∨
      ∃ x a b, sv₁.known x = some a ∧ sv₂.known x = some b ∧ ¬ sv₁.Coincide a b := by
  by_contra hcontra
  obtain ⟨hnamed, hsame⟩ := not_or.mp hcontra
  -- if no region differs, the proof that the constraint holds carries over
  have hcoincide : ∀ x a b, sv₁.known x = some a → sv₂.known x = some b → sv₁.Coincide a b := by
    intro x a b ha hb
    by_contra hdiffer
    exact hsame ⟨x, a, b, ha, hb, hdiffer⟩
  cases h with
  | unnamed hlonger hshorter hunnamed => exact hnamed ⟨_, _, hunnamed, rfl⟩
  | violated hlonger hshorter hpath =>
    exact hpath (Outlive.path_of_coincide hholds hparams hlonger hshorter hcoincide)
  | unequal hx hy hpath =>
    exact hpath ⟨hholds.1.path_of_coincide hparams hx hy hcoincide,
      hholds.2.path_of_coincide hparams hy hx hcoincide⟩

/-- A constraint that fails is between known regions. -/
theorem Refused.exists_joins (h : sv.Refused c e) :
    ∃ x y a, Joins c x y ∧ sv.known x = some a := by
  cases h with
  | unnamed hlonger _ _ => exact ⟨_, _, _, .inl rfl, hlonger⟩
  | violated hlonger _ _ => exact ⟨_, _, _, .inl rfl, hlonger⟩
  | unequal hx _ _ => exact ⟨_, _, _, .inr (.inr (.inl rfl)), hx⟩

/-! ## Names -/

/-- The constraints name only region variables, declared regions and placeholders, also by region
variables that are decided. -/
def NamesOnly (sv : RegionSolver) (s : Subst) (cs : List RegionConstraint) : Prop :=
  ∀ c ∈ queue s cs, ∀ x y a, Joins c x y → sv.known x = some a → sv.isNamed a = true

/-- Then all regions that the constraints come to relate are named. -/
theorem NamesOnly.isNamed (h : sv.NamesOnly s sv.constraints)
    (hsolve : sv.solve s = (sv', result)) {x y a : Region} (hc : c ∈ queue s sv.constraints)
    (hjoins : Joins c x y) (ha : sv'.known x = some a) : sv'.isNamed a = true := by
  rw [(grows_of_solve hsolve).isNamed_eq]
  rcases known_or_offered hsolve ha with hknown | hoffered
  · exact h c hc x y a hjoins hknown
  · -- what is offered comes from some constraint, and this one names only such regions
    obtain ⟨c', hc', x', y', hjoins', hx'⟩ := hoffered.exists_source
    exact h c' hc' x' y' a hjoins' hx'

/-- Where only named regions stand in the constraints, no failure is about a region that is not. -/
theorem NamesOnly.not_isUnnamed (h : sv.NamesOnly s sv.constraints)
    (hsolve : sv.solve s = (sv', result)) (hrounds : Rounds s sv sv.constraints k sv' (.error e)) :
    ¬ sv.IsUnnamed e := by
  obtain ⟨c, hc, hfails⟩ := hrounds.failed rfl
  cases refused hfails with
  | unnamed hlonger hshorter hunnamed =>
    exact absurd ⟨h.isNamed hsolve hc (.inl rfl) hlonger,
      h.isNamed hsolve hc (.inr (.inl rfl)) hshorter⟩ hunnamed
  | violated _ _ _ =>
    rintro ⟨a, b, -, he⟩
    cases he
  | unequal _ _ _ =>
    rintro ⟨a, b, -, he⟩
    cases he

/-! ## Two orders -/

/-- The second solver is the first one with its constraints in another order. -/
def Reordered (sv₁ sv₂ : RegionSolver) : Prop :=
  ∃ cs, sv₁.constraints.Perm cs ∧ sv₂ = { sv₁ with constraints := cs }

/-- The solvers can change places. -/
theorem Reordered.symm (h : Reordered sv₁ sv₂) : Reordered sv₂ sv₁ := by
  obtain ⟨cs, hperm, rfl⟩ := h
  exact ⟨sv₁.constraints, hperm.symm, rfl⟩

/-- Constraints may be added in any order. -/
theorem reordered_add (sv : RegionSolver) (hperm : cs₁.Perm cs₂) :
    Reordered (sv.add cs₁) (sv.add cs₂) :=
  ⟨sv.constraints ++ cs₂, hperm.append_left _, rfl⟩

/-- The order makes no difference to what is offered. -/
theorem Reordered.offered {a : Region} (h : Reordered sv₁ sv₂)
    (hoffered : Offered sv₂ s sv₂.constraints v a) : Offered sv₁ s sv₁.constraints v a := by
  obtain ⟨cs, hperm, rfl⟩ := h
  exact hoffered.congr (fun _ => rfl) (queue_perm hperm).symm.subset

/-- What was known before is the same in both orders. -/
theorem Reordered.coincide_of_known {r a b : Region} (h : Reordered sv₁ sv₂)
    (hgrows₁ : sv₁.Grows sv₁') (hgrows₂ : sv₂.Grows sv₂') (hr : sv₁.known v = some r)
    (ha : sv₁'.known v = some a) (hb : sv₂'.known v = some b) : sv₁.Coincide a b := by
  obtain ⟨cs, -, rfl⟩ := h
  obtain rfl := Option.some.inj (ha.symm.trans (hgrows₁.known hr))
  obtain rfl := Option.some.inj (hb.symm.trans (hgrows₂.known hr))
  exact Coincide.refl sv₁ _

/-- What is decided in some order, also up to a failure, is decided in each order that succeeds. -/
theorem Reordered.exists_known {b : Region} (h : Reordered sv₁ sv₂)
    (hrounds : Rounds s sv₁ sv₁.constraints k sv₁' (.ok pending))
    (hsolve : sv₂.solve s = (sv₂', result)) (hb : sv₂'.known v = some b) :
    ∃ a, sv₁'.known v = some a := by
  rcases known_or_offered hsolve hb with hknown | hoffered
  · obtain ⟨cs, -, rfl⟩ := h
    exact ⟨b, hrounds.grows.known hknown⟩
  · exact hrounds.exists_known_of_offered (h.offered hoffered)

/-- A constraint at which one order fails holds in each order that succeeds. -/
theorem Reordered.holds_of_refused (h : Reordered sv₁ sv₂)
    (hrounds : Rounds s sv₁ sv₁.constraints k sv₁' (.ok pending))
    (hsolve : sv₂.solve s = (sv₂', result)) (hc : c ∈ queue s sv₂.constraints)
    (hrefused : sv₂'.Refused c e) : sv₁'.Holds c := by
  obtain ⟨x, y, b, hjoins, hb⟩ := hrefused.exists_joins
  have hmem : c ∈ queue s sv₁.constraints := by
    obtain ⟨cs, hperm, rfl⟩ := h
    exact (queue_perm hperm).symm.subset hc
  -- one of its regions is known there too, so it is not left
  have hleft : c ∉ pending := by
    intro hleft
    obtain ⟨a, ha⟩ := h.exists_known hrounds hsolve hb
    have hunresolved := (hrounds.undecided hleft).isUnresolved hjoins
    rw [known_eq_none_iff.mpr hunresolved] at ha
    cases ha
  rcases ((hrounds.passed rfl c hmem).resolve_left hleft).holds with hholds | ⟨_, _, rfl, -⟩
  · exact hholds
  · cases hrefused

/-- If solving fails in one order and succeeds in another, the failure is about a region that is not
named, or a region variable is decided to be regions that do not coincide. -/
theorem Reordered.exists_differ (h : Reordered sv₁ sv₂)
    (hrounds₁ : Rounds s sv₁ sv₁.constraints k sv₁' (.ok pending))
    (hsolve₂ : sv₂.solve s = (sv₂', result))
    (hrounds₂ : Rounds s sv₂ sv₂.constraints k₂ sv₂' (.error e)) :
    sv₂.IsUnnamed e ∨ ∃ v a b, sv₁.known v = none ∧ sv₁'.known v = some a ∧
      sv₂'.known v = some b ∧ ¬ sv₁.Coincide a b := by
  obtain ⟨c, hc, hfails⟩ := hrounds₂.failed rfl
  have hrefused := refused hfails
  have hholds := h.holds_of_refused hrounds₁ hsolve₂ hc hrefused
  have hparams : sv₂'.params = sv₁'.params := by
    obtain ⟨cs, -, rfl⟩ := h
    exact hrounds₂.grows.params_eq.trans hrounds₁.grows.params_eq.symm
  rcases hrefused.exists_differ hholds hparams with
    ⟨a, b, hunnamed, rfl⟩ | ⟨v, a, b, ha, hb, hdiffer⟩
  · left
    rw [hrounds₂.grows.isNamed_eq, hrounds₂.grows.isNamed_eq] at hunnamed
    exact ⟨a, b, hunnamed, rfl⟩
  · right
    rw [Coincide, hrounds₁.grows.params_eq] at hdiffer
    -- it was not known before, since otherwise both orders would have kept what it was
    refine ⟨v, a, b, ?_, ha, hb, hdiffer⟩
    refine Option.eq_none_iff_forall_ne_some.mpr fun r hr => hdiffer ?_
    exact h.coincide_of_known hrounds₁.grows hrounds₂.grows hr ha hb

/-- Any two regions that are offered to one region variable outlive each other. -/
def OffersCoincide (sv : RegionSolver) (s : Subst) (cs : List RegionConstraint) : Prop :=
  ∀ v a b, Offered sv s cs v a → Offered sv s cs v b → sv.Coincide a b

/-- Then it makes no difference in effect which one the region variable comes upon first. -/
theorem Reordered.coincide {result₁ result₂ : Except Error RegionSolution} {a b : Region}
    (h : Reordered sv₁ sv₂) (hoffers : sv₁.OffersCoincide s sv₁.constraints)
    (hsolve₁ : sv₁.solve s = (sv₁', result₁)) (hsolve₂ : sv₂.solve s = (sv₂', result₂))
    (ha : sv₁'.known v = some a) (hb : sv₂'.known v = some b) : sv₁.Coincide a b := by
  cases hv : sv₁.known v with
  | some r => exact h.coincide_of_known (grows_of_solve hsolve₁) (grows_of_solve hsolve₂) hv ha hb
  | none =>
    have hv₂ : sv₂.known v = none := by
      obtain ⟨cs, -, rfl⟩ := h
      exact hv
    -- both orders have decided it, so both regions are offered to it
    have hoffered₁ := (known_or_offered hsolve₁ ha).resolve_left (by simp [hv])
    have hoffered₂ := (known_or_offered hsolve₂ hb).resolve_left (by simp [hv₂])
    exact hoffers v a b hoffered₁ (h.offered hoffered₂)

/-- The offers do not depend on the order. -/
theorem Reordered.offersCoincide (h : Reordered sv₁ sv₂)
    (hoffers : sv₁.OffersCoincide s sv₁.constraints) : sv₂.OffersCoincide s sv₂.constraints := by
  intro v a b ha hb
  have hcoincide := hoffers v a b (h.offered ha) (h.offered hb)
  obtain ⟨cs, -, rfl⟩ := h
  exact hcoincide

/-- The names do not depend on the order. -/
theorem Reordered.namesOnly (h : Reordered sv₁ sv₂) (hnames : sv₁.NamesOnly s sv₁.constraints) :
    sv₂.NamesOnly s sv₂.constraints := by
  obtain ⟨cs, hperm, rfl⟩ := h
  exact fun c hc => hnames c ((queue_perm hperm).symm.subset hc)

/-- Where offers coincide and all regions are named, an order succeeds if another one does. -/
theorem Reordered.exists_ok {result₂ : Except Error RegionSolution} {sol : RegionSolution}
    (h : Reordered sv₁ sv₂) (hoffers : sv₁.OffersCoincide s sv₁.constraints)
    (hnames : sv₁.NamesOnly s sv₁.constraints) (hsolve₁ : sv₁.solve s = (sv₁', .ok sol))
    (hsolve₂ : sv₂.solve s = (sv₂', result₂))
    (hlimit : ∀ limit left, result₂ ≠ .error (.solverIterationLimit limit left)) :
    ∃ sol, result₂ = .ok sol := by
  cases result₂ with
  | ok sol => exact ⟨sol, rfl⟩
  | error e =>
    exfalso
    obtain ⟨k₁, -, hrounds₁, -⟩ := exists_rounds_of_solve_ok hsolve₁
    obtain ⟨k₂, hrounds₂⟩ := exists_rounds_of_solve_error hsolve₂ (by simpa using hlimit)
    rcases h.exists_differ hrounds₁ hsolve₂ hrounds₂ with hunnamed | ⟨v, a, b, -, ha, hb, hdiffer⟩
    · exact (h.namesOnly hnames).not_isUnnamed hsolve₂ hrounds₂ hunnamed
    · exact hdiffer (h.coincide hoffers hsolve₁ hsolve₂ ha hb)

/-- What stays undecided in an order that succeeds is decided in no order. -/
theorem Reordered.known_eq_none {sol : RegionSolution} (h : Reordered sv₁ sv₂)
    (hsolve₁ : sv₁.solve s = (sv₁', .ok sol)) (hsolve₂ : sv₂.solve s = (sv₂', result))
    (hv : sv₁'.known v = none) : sv₂'.known v = none := by
  obtain ⟨k, -, hrounds, -⟩ := exists_rounds_of_solve_ok hsolve₁
  refine Option.eq_none_iff_forall_ne_some.mpr fun b hb => ?_
  obtain ⟨a, ha⟩ := h.exists_known hrounds hsolve₂ hb
  rw [hv] at ha
  cases ha

/-- A constraint is undecided wherever no more region variables are known. -/
theorem Undecided.congr (h : sv₁.Undecided s c)
    (hnone : ∀ v, sv₁.known v = none → sv₂.known v = none) : sv₂.Undecided s c := by
  have hunresolved : ∀ v, sv₁.IsUnresolved v → sv₂.IsUnresolved v :=
    fun v hv => known_eq_none_iff.mp (hnone v (known_eq_none_iff.mpr hv))
  cases c with
  | outlives longer shorter => exact ⟨hunresolved _ h.1, hunresolved _ h.2⟩
  | equal a b => exact ⟨hunresolved _ h.1, hunresolved _ h.2⟩
  | typeOutlives type region => exact h

/-- What is left does not depend on the order. -/
theorem Reordered.pending_perm {sol₁ sol₂ : RegionSolution} (h : Reordered sv₁ sv₂)
    (hsolve₁ : sv₁.solve s = (sv₁', .ok sol₁)) (hsolve₂ : sv₂.solve s = (sv₂', .ok sol₂)) :
    sol₁.pending.Perm sol₂.pending := by
  obtain ⟨k₁, -, hrounds₁, -⟩ := exists_rounds_of_solve_ok hsolve₁
  obtain ⟨k₂, -, hrounds₂, -⟩ := exists_rounds_of_solve_ok hsolve₂
  have hqueue : (queue s sv₁.constraints).Perm (queue s sv₂.constraints) := by
    obtain ⟨cs, hperm, rfl⟩ := h
    exact queue_perm hperm
  -- both leave the undecided part of the queue, and the same constraints are undecided
  have hundecided : ∀ c, sv₁'.Undecided s c ↔ sv₂'.Undecided s c := by
    refine fun c => ⟨fun hc => hc.congr fun v => ?_, fun hc => hc.congr fun v => ?_⟩
    · exact h.known_eq_none hsolve₁ hsolve₂
    · exact h.symm.known_eq_none hsolve₂ hsolve₁
  rw [hrounds₁.pending_eq rfl, hrounds₂.pending_eq rfl]
  simp only [hundecided]
  exact hqueue.filter _

/-- Let constraints be added to a solver in two orders, and solving not be cut off by the limit.

If it succeeds in one order and fails in the other, the failure is about a region that is not named,
or the two orders have decided a region variable to be regions that do not outlive each other. If it
succeeds in both, they have decided the same region variables and leave the same constraints. If any
two regions that are offered to one region variable outlive each other, so do the regions that the
two orders decide it to be; if moreover all regions are named, one order succeeds exactly if the
other one does. -/
theorem solve_of_perm {result₁ result₂ : Except Error RegionSolution} (hperm : cs₁.Perm cs₂)
    (hsolve₁ : (sv.add cs₁).solve s = (sv₁, result₁))
    (hsolve₂ : (sv.add cs₂).solve s = (sv₂, result₂))
    (hlimit₁ : ∀ limit left, result₁ ≠ .error (.solverIterationLimit limit left))
    (hlimit₂ : ∀ limit left, result₂ ≠ .error (.solverIterationLimit limit left)) :
    (∀ sol e, result₁ = .ok sol → result₂ = .error e →
      sv.IsUnnamed e ∨ ∃ v a b, sv.known v = none ∧ sv₁.known v = some a ∧ sv₂.known v = some b ∧
        ¬ sv.Coincide a b) ∧
    (∀ sol₁ sol₂, result₁ = .ok sol₁ → result₂ = .ok sol₂ →
      (∀ v, sv₁.known v = none ↔ sv₂.known v = none) ∧ sol₁.pending.Perm sol₂.pending) ∧
    (sv.OffersCoincide s (sv.constraints ++ cs₁) →
      (∀ v a b, sv₁.known v = some a → sv₂.known v = some b → sv.Coincide a b) ∧
      (sv.NamesOnly s (sv.constraints ++ cs₁) →
        ((∃ sol, result₁ = .ok sol) ↔ ∃ sol, result₂ = .ok sol))) := by
  have h : Reordered (sv.add cs₁) (sv.add cs₂) := reordered_add sv hperm
  refine ⟨?_, ?_, fun hoffers => ?_⟩
  · rintro sol e rfl rfl
    obtain ⟨k₁, -, hrounds₁, -⟩ := exists_rounds_of_solve_ok hsolve₁
    obtain ⟨k₂, hrounds₂⟩ := exists_rounds_of_solve_error hsolve₂ (by simpa using hlimit₂)
    exact h.exists_differ hrounds₁ hsolve₂ hrounds₂
  · rintro sol₁ sol₂ rfl rfl
    refine ⟨fun v => ⟨h.known_eq_none hsolve₁ hsolve₂, ?_⟩, h.pending_perm hsolve₁ hsolve₂⟩
    exact h.symm.known_eq_none hsolve₂ hsolve₁
  · -- adding constraints changes nothing that is known, so the same regions are offered
    have hoffers₁ : (sv.add cs₁).OffersCoincide s (sv.add cs₁).constraints := by
      intro v a b ha hb
      have hsubset := List.Subset.refl (queue s (sv.constraints ++ cs₁))
      exact hoffers v a b (ha.congr (fun _ => rfl) hsubset) (hb.congr (fun _ => rfl) hsubset)
    refine ⟨fun v a b => h.coincide hoffers₁ hsolve₁ hsolve₂, fun hnames => ⟨?_, ?_⟩⟩
    · rintro ⟨sol, rfl⟩
      exact h.exists_ok hoffers₁ hnames hsolve₁ hsolve₂ hlimit₂
    · rintro ⟨sol, rfl⟩
      exact h.symm.exists_ok (h.offersCoincide hoffers₁) (h.namesOnly hnames) hsolve₂ hsolve₁
        hlimit₁

/-- A solver in which `'a` and `'b` are declared to outlive each other. -/
def twins : RegionSolver :=
  (({} : RegionSolver).declare [⟨⟨"'a"⟩, [⟨"'b"⟩]⟩, ⟨⟨"'b"⟩, [⟨"'a"⟩]⟩]).1.fresh.2.fresh.2

/-- Both `'a` and `'b` are offered to both region variables. -/
def twinOffers : List RegionConstraint :=
  [.outlives ⟨"'a"⟩ ⟨"'_0"⟩, .outlives ⟨"'b"⟩ ⟨"'_0"⟩, .equal ⟨"'_0"⟩ ⟨"'_1"⟩]

/-- In the example, constraints mention no known regions but the twins. -/
theorem eq_of_known_twins {x y a : Region}
    (hc : c ∈ queue .empty (twins.constraints ++ twinOffers)) (hjoins : Joins c x y)
    (ha : twins.known x = some a) : a = ⟨"'a"⟩ ∨ a = ⟨"'b"⟩ := by
  have hqueue : queue .empty (twins.constraints ++ twinOffers) = twinOffers := by cbv
  have hside : x = ⟨"'a"⟩ ∨ x = ⟨"'b"⟩ ∨ x = ⟨"'_0"⟩ ∨ x = ⟨"'_1"⟩ := by
    rw [hqueue] at hc
    simp only [twinOffers, List.mem_cons, List.not_mem_nil, or_false] at hc
    rcases hc with rfl | rfl | rfl <;> rcases hjoins with h | h | h | h <;> cases h <;> simp
  rcases hside with rfl | rfl | rfl | rfl
  · have hknown : twins.known ⟨"'a"⟩ = some ⟨"'a"⟩ := by cbv
    exact .inl (Option.some.inj (ha.symm.trans hknown))
  · have hknown : twins.known ⟨"'b"⟩ = some ⟨"'b"⟩ := by cbv
    exact .inr (Option.some.inj (ha.symm.trans hknown))
  · have hknown : twins.known ⟨"'_0"⟩ = none := by cbv
    cases ha.symm.trans hknown
  · have hknown : twins.known ⟨"'_1"⟩ = none := by cbv
    cases ha.symm.trans hknown

theorem namesOnly_twins : twins.NamesOnly .empty (twins.constraints ++ twinOffers) := by
  intro c hc x y a hjoins ha
  rcases eq_of_known_twins hc hjoins ha with rfl | rfl
  · cbv
  · cbv

theorem offersCoincide_twins : twins.OffersCoincide .empty (twins.constraints ++ twinOffers) := by
  have hedges : RegionParam.edges twins.params =
      [(⟨"'a"⟩, ⟨"'b"⟩), (⟨"'b"⟩, ⟨"'a"⟩)] := by cbv
  have hab : RegionParam.Outlives (RegionParam.edges twins.params) ⟨"'a"⟩ ⟨"'b"⟩ :=
    .bound (by simp [hedges])
  have hba : RegionParam.Outlives (RegionParam.edges twins.params) ⟨"'b"⟩ ⟨"'a"⟩ :=
    .bound (by simp [hedges])
  intro v a b ha hb
  obtain ⟨c, hc, x, y, hjoins, hx⟩ := ha.exists_source
  obtain ⟨c', hc', x', y', hjoins', hx'⟩ := hb.exists_source
  rcases eq_of_known_twins hc hjoins hx with rfl | rfl <;>
    rcases eq_of_known_twins hc' hjoins' hx' with rfl | rfl
  · exact .refl twins _
  · exact ⟨hab, hba⟩
  · exact ⟨hba, hab⟩
  · exact .refl twins _

/-- The order decides which of the two regions it is, and in both orders solving succeeds. -/
theorem solve_of_perm_of_twins :
    ∃ (sv₁ sv₂ : RegionSolver) (sol₁ sol₂ : RegionSolution),
      (twins.add twinOffers).solve .empty = (sv₁, .ok sol₁) ∧
      (twins.add twinOffers.reverse).solve .empty = (sv₂, .ok sol₂) ∧
      sol₁.resolved = [(⟨"'_0"⟩, ⟨"'a"⟩), (⟨"'_1"⟩, ⟨"'a"⟩)] ∧
      sol₂.resolved = [(⟨"'_0"⟩, ⟨"'b"⟩), (⟨"'_1"⟩, ⟨"'b"⟩)] ∧
      twins.OffersCoincide .empty (twins.constraints ++ twinOffers) ∧
      twins.NamesOnly .empty (twins.constraints ++ twinOffers) ∧
      twins.Coincide ⟨"'a"⟩ ⟨"'b"⟩ ∧ sol₁.pending.Perm sol₂.pending := by
  let sv₁ : RegionSolver :=
    { twins.add twinOffers with resolution := [(⟨"'_1"⟩, ⟨"'a"⟩), (⟨"'_0"⟩, ⟨"'a"⟩)] }
  let sv₂ : RegionSolver :=
    { twins.add twinOffers.reverse with resolution := [(⟨"'_1"⟩, ⟨"'b"⟩), (⟨"'_0"⟩, ⟨"'b"⟩)] }
  let sol₁ : RegionSolution := ⟨[(⟨"'_0"⟩, ⟨"'a"⟩), (⟨"'_1"⟩, ⟨"'a"⟩)], [], [], 1⟩
  let sol₂ : RegionSolution := ⟨[(⟨"'_0"⟩, ⟨"'b"⟩), (⟨"'_1"⟩, ⟨"'b"⟩)], [], [], 2⟩
  have hsolve₁ : (twins.add twinOffers).solve .empty = (sv₁, .ok sol₁) := by cbv
  have hsolve₂ : (twins.add twinOffers.reverse).solve .empty = (sv₂, .ok sol₂) := by cbv
  obtain ⟨-, hboth, hsame⟩ := solve_of_perm (List.reverse_perm twinOffers).symm hsolve₁ hsolve₂
    (fun _ _ => by rintro ⟨⟩) (fun _ _ => by rintro ⟨⟩)
  have hcoincide := (hsame offersCoincide_twins).1 ⟨"'_0"⟩ ⟨"'a"⟩ ⟨"'b"⟩ (by cbv) (by cbv)
  exact ⟨sv₁, sv₂, sol₁, sol₂, hsolve₁, hsolve₂, rfl, rfl, offersCoincide_twins, namesOnly_twins,
    hcoincide, (hboth sol₁ sol₂ rfl rfl).2⟩

/-- With `'b: 'a` declared, a region variable that both have to outlive may be `'a`, but not `'b`. A
region that is not declared is accepted where it decides a region variable, and refused where the
region variable is decided already. -/
theorem exists_perm_solve_fails :
    (∃ (sv sv₁ sv₂ : RegionSolver) (cs₁ cs₂ : List RegionConstraint) (sol : RegionSolution),
      sv.Reachable ∧ cs₁.Perm cs₂ ∧ (sv.add cs₁).solve .empty = (sv₁, .ok sol) ∧
      (sv.add cs₂).solve .empty = (sv₂, .error (.regionConstraintViolated "'a" "'b"))) ∧
    ∃ (sv sv₁ sv₂ : RegionSolver) (cs₁ cs₂ : List RegionConstraint) (sol : RegionSolution),
      sv.Reachable ∧ cs₁.Perm cs₂ ∧ (sv.add cs₁).solve .empty = (sv₁, .ok sol) ∧
      (sv.add cs₂).solve .empty = (sv₂, .error (.unknownLifetimeBound "'x" "'x")) := by
  refine ⟨?_, ?_⟩
  · let sv : RegionSolver :=
      (({} : RegionSolver).declare [⟨⟨"'a"⟩, []⟩, ⟨⟨"'b"⟩, [⟨"'a"⟩]⟩]).1.fresh.2
    -- whichever of the two comes first decides the region variable
    let first : RegionConstraint := .outlives ⟨"'a"⟩ ⟨"'_0"⟩
    let second : RegionConstraint := .outlives ⟨"'b"⟩ ⟨"'_0"⟩
    have hreachable : sv.Reachable := ((Reachable.new 100).declare _).fresh
    exact ⟨sv, { sv.add [first, second] with resolution := [(⟨"'_0"⟩, ⟨"'a"⟩)] },
      { sv.add [second, first] with resolution := [(⟨"'_0"⟩, ⟨"'b"⟩)] }, [first, second],
      [second, first], ⟨[(⟨"'_0"⟩, ⟨"'a"⟩)], [], [], 1⟩, hreachable, .swap _ _ _, by cbv, by cbv⟩
  · let sv : RegionSolver := ({} : RegionSolver).fresh.2
    -- in both orders the region variable is `'x`; what differs is which constraint checks it
    let first : RegionConstraint := .outlives ⟨"'x"⟩ ⟨"'_0"⟩
    let second : RegionConstraint := .equal ⟨"'_0"⟩ ⟨"'x"⟩
    have hreachable : sv.Reachable := (Reachable.new 100).fresh
    exact ⟨sv, { sv.add [first, second] with resolution := [(⟨"'_0"⟩, ⟨"'x"⟩)] },
      { sv.add [second, first] with resolution := [(⟨"'_0"⟩, ⟨"'x"⟩)] }, [first, second],
      [second, first], ⟨[(⟨"'_0"⟩, ⟨"'x"⟩)], [], [], 1⟩, hreachable, .swap _ _ _, by cbv, by cbv⟩

end Generics.RegionSolver
