import Generics.Proofs.Region.Queue
import Mathlib.Data.Nat.Init

/-!
# How many passes solving makes

The limit on the passes only cuts solving off. Without it the passes come to an end on their own:
the first one replaces the constraints on types, and every later one that is not the last decides at
least one constraint between regions. The length of the list is not what gets smaller, since
constraints on types that are not inferred yet stay in it.

## Main results

* `RegionSolver.Rounds`: the passes over constraints without a limit, and how many there are;
* `RegionSolver.load`: how many constraints between regions there are to decide;
* `RegionSolver.exists_rounds`: the passes come to an end, and there are at most `load + 2`;
* `RegionSolver.passes_of_rounds`, `RegionSolver.passes_of_lt_rounds`: what a limit does to them;
* `RegionSolver.Rounds.passed`, `RegionSolver.Rounds.failed`, `RegionSolver.Rounds.pending_eq`: what
  becomes of the constraints;
* `RegionSolver.Rounds.stable`: in the end no constraint can decide a region variable.
-/

namespace Generics.RegionSolver

variable {sv sv' : RegionSolver} {s : Subst} {c : RegionConstraint} {cs : List RegionConstraint}

/-! ## Passes without a limit -/

/-- `Rounds s sv cs k sv' out`: from the solver `sv`, exactly `k` passes are made over the
constraints `cs` until nothing is left, a pass decides nothing, or a pass fails. The solver is then
`sv'`, and `out` is what is left or the failure. -/
inductive Rounds (s : Subst) : RegionSolver → List RegionConstraint → Nat → RegionSolver →
    Except Error (List RegionConstraint) → Prop
  | none (sv : RegionSolver) : Rounds s sv [] 0 sv (.ok [])
  | fails {sv : RegionSolver} {cs : List RegionConstraint} {p : Pass} {e : Error} (hcs : cs ≠ [])
      (hpass : sv.pass s cs = (p, .error e)) : Rounds s sv cs 1 p.solver (.error e)
  | ends {sv : RegionSolver} {cs : List RegionConstraint} {p : Pass} (hcs : cs ≠ [])
      (hpass : sv.pass s cs = (p, .ok ())) (hdecided : p.decided = false) :
      Rounds s sv cs 1 p.solver (.ok p.waiting)
  | goesOn {sv sv' : RegionSolver} {cs : List RegionConstraint} {p : Pass} {k : Nat}
      {out : Except Error (List RegionConstraint)} (hcs : cs ≠ [])
      (hpass : sv.pass s cs = (p, .ok ())) (hdecided : p.decided = true)
      (h : Rounds s p.solver p.waiting k sv' out) : Rounds s sv cs (k + 1) sv' out

variable {k n : Nat} {out : Except Error (List RegionConstraint)}

/-- A pass that fails is the last one. -/
theorem passes_of_pass_error {p : Pass} {e : Error} (hcs : cs ≠ [])
    (hpass : sv.pass s cs = (p, .error e)) (count n : Nat) :
    passes s sv count cs (n + 1) = (p.solver, .error e) := by
  rw [passes, if_neg (by simpa using hcs), hpass]

/-- A pass that decides nothing is the last one. -/
theorem passes_of_not_decided {p : Pass} (hcs : cs ≠ []) (hpass : sv.pass s cs = (p, .ok ()))
    (hdecided : p.decided = false) (count n : Nat) :
    passes s sv count cs (n + 1) = (p.solver, .ok (p.waiting, count + 1)) := by
  rw [passes, if_neg (by simpa using hcs), hpass]
  simp only [hdecided, Bool.false_eq_true, if_false]

/-- After a pass that decides something there is another one. -/
theorem passes_of_decided {p : Pass} (hcs : cs ≠ []) (hpass : sv.pass s cs = (p, .ok ()))
    (hdecided : p.decided = true) (count n : Nat) :
    passes s sv count cs (n + 1) = passes s p.solver (count + 1) p.waiting n := by
  rw [passes, if_neg (by simpa using hcs), hpass]
  simp only [hdecided, if_true]

/-- With enough passes allowed, all of them are made. -/
theorem passes_of_rounds (h : Rounds s sv cs k sv' out) (hk : k ≤ n) (count : Nat) :
    passes s sv count cs n = (sv', out.map fun left => (left, count + k)) := by
  induction h generalizing n count with
  | none sv => cases n <;> rfl
  | fails hcs hpass =>
    obtain ⟨m, rfl⟩ := Nat.exists_eq_add_of_le' hk
    exact passes_of_pass_error hcs hpass count m
  | ends hcs hpass hdecided =>
    obtain ⟨m, rfl⟩ := Nat.exists_eq_add_of_le' hk
    exact passes_of_not_decided hcs hpass hdecided count m
  | @goesOn sv sv' cs p k out hcs hpass hdecided _ ih =>
    obtain ⟨m, rfl⟩ := Nat.exists_eq_add_of_le' (Nat.le_trans (Nat.le_add_left 1 k) hk)
    rw [passes_of_decided hcs hpass hdecided, ih (Nat.le_of_succ_le_succ hk), Nat.add_right_comm,
      Nat.add_assoc]

/-- With fewer passes allowed, the limit cuts them off. -/
theorem passes_of_lt_rounds (h : Rounds s sv cs k sv' out) (hk : n < k) (count : Nat) :
    ∃ sv'' left, passes s sv count cs n = (sv'', .error (.solverIterationLimit sv.limit left)) := by
  induction h generalizing n count with
  | none sv => exact absurd hk (Nat.not_lt_zero n)
  | fails hcs _ =>
    obtain rfl : n = 0 := Nat.lt_one_iff.mp hk
    exact ⟨_, _, if_neg (by simpa using hcs)⟩
  | ends hcs _ _ =>
    obtain rfl : n = 0 := Nat.lt_one_iff.mp hk
    exact ⟨_, _, if_neg (by simpa using hcs)⟩
  | @goesOn sv sv' cs p k out hcs hpass hdecided _ ih =>
    cases n with
    | zero => exact ⟨_, _, if_neg (by simpa using hcs)⟩
    | succ m =>
      -- the failure names the limit of the solver, which no pass changes
      have hlimit : p.solver.limit = sv.limit := by
        obtain ⟨resolution, hsolver⟩ := (grows_of_pass hpass).exists_eq
        rw [hsolver]
      rw [passes_of_decided hcs hpass hdecided, ← hlimit]
      exact ih (Nat.lt_of_succ_lt_succ hk) (count + 1)

/-! ## How many constraints there are to decide -/

/-- The number of constraints between regions, those that constraints on types without inference
variables come down to included. -/
def load (s : Subst) : List RegionConstraint → Nat
  | [] => 0
  | .outlives _ _ :: cs => 1 + load s cs
  | .equal _ _ :: cs => 1 + load s cs
  | .typeOutlives type _ :: cs =>
    (if (s.apply type).isGround then (s.apply type).regions.length else 0) + load s cs

/-- The constraint is one between regions. -/
def isBetweenRegions : RegionConstraint → Bool
  | .outlives _ _ => true
  | .equal _ _ => true
  | .typeOutlives _ _ => false

/-- How many constraints of a list are between regions. -/
def between (cs : List RegionConstraint) : Nat := cs.countP isBetweenRegions

theorem between_append (cs cs' : List RegionConstraint) :
    between (cs ++ cs') = between cs + between cs' :=
  List.countP_append

/-- All regions of a type without inference variables give a constraint. -/
theorem between_expansion (s : Subst) (type : Ty) (region : Region) :
    between (expansion s (.typeOutlives type region)) =
      if (s.apply type).isGround then (s.apply type).regions.length else 0 := by
  rw [expansion]
  split
  · rw [between, List.countP_map]
    exact List.countP_eq_length.mpr fun _ _ => rfl
  · rfl

/-- In the queue, the constraints between regions are those of the load. -/
theorem between_queue (s : Subst) (cs : List RegionConstraint) :
    between (queue s cs) = load s cs := by
  induction cs with
  | nil => rfl
  | cons c cs ih =>
    have hqueue : between (queue s (c :: cs)) =
        between [c] + between (expansion s c) + between (queue s cs) := by
      have hcons : between (c :: cs) = between [c] + between cs := between_append [c] cs
      rw [queue, queue, List.flatMap_cons, between_append, between_append, between_append, hcons]
      omega
    rw [hqueue, ih]
    cases c with
    | outlives longer shorter => rfl
    | equal a b => rfl
    | typeOutlives type region =>
      rw [between_expansion, load]
      exact congrArg (· + load s cs) (Nat.zero_add _)

/-! ## What a pass makes smaller -/

/-- A constraint that holds is one between regions. -/
theorem between_of_holds (h : sv.Holds c) : between [c] = 1 := by
  cases c with
  | outlives longer shorter => rfl
  | equal a b => rfl
  | typeOutlives type region => exact h.elim

/-- A look at a constraint that has waited before lets it wait again, or decides a constraint
between regions. -/
theorem Examined.waits_or_between {p : Pass} {o : Outcome} (h : p.solver.Examined s c o)
    (hundecided : sv.Undecided s c) :
    o = .waits ∨ (p.after c o).waiting = p.waiting ∧ between [c] = 1 := by
  cases h with
  | waits => exact .inl rfl
  | holds hholds => exact .inr ⟨rfl, between_of_holds hholds⟩
  | decides _ _ hholds => exact .inr ⟨rfl, between_of_holds hholds⟩
  | expands hground =>
    -- it would have to be on a type without inference variables, which does not wait
    exact absurd (Ty.isGround_iff.mp hground) hundecided

/-- If constraints that have waited before are looked at and one does not wait again, fewer of those
that wait are between regions. -/
theorem between_waiting_over {p p' : Pass} (h : Pass.over s p cs = (p', .ok ()))
    (hundecided : ∀ c ∈ cs, sv'.Undecided s c) (hdecided : p'.decided = true) :
    p.decided = true ∨ between p'.waiting < between p.waiting + between cs := by
  induction cs generalizing p with
  | nil =>
    cases h
    exact .inl hdecided
  | cons c cs ih =>
    obtain ⟨o, hexamine, hrest⟩ := exists_examine_of_over_cons h
    obtain ⟨hc, hcs⟩ := List.forall_mem_cons.mp hundecided
    have hcons : between (c :: cs) = between [c] + between cs := between_append [c] cs
    rcases (examined hexamine).waits_or_between hc with rfl | ⟨hsame, hone⟩
    · have hwaits : between (p.after c .waits).waiting = between p.waiting + between [c] :=
        between_append p.waiting [c]
      refine (ih hrest hcs).imp_right fun hlt => ?_
      omega
    · -- this one does not wait, and the others at most once each
      obtain ⟨more, hwaiting, hsublist, -⟩ := waiting_over s (p.after c o) cs
      have hmore : between more ≤ between cs := hsublist.countP_le
      rw [hrest, hsame] at hwaiting
      right
      rw [hwaiting, between_append]
      omega

/-- What waits after a pass is at most what there was to decide. -/
theorem between_waiting_pass {p : Pass} {outcome : Except Error Unit}
    (hpass : sv.pass s cs = (p, outcome)) : between p.waiting ≤ load s cs := by
  rw [← between_queue]
  exact (waiting_of_pass hpass).1.countP_le

/-- A pass over constraints that have waited before makes them fewer or decides nothing. -/
theorem between_waiting_pass_lt {p : Pass} (hpass : sv.pass s cs = (p, .ok ()))
    (hundecided : ∀ c ∈ cs, sv'.Undecided s c) (hdecided : p.decided = true) :
    between p.waiting < between cs := by
  obtain ⟨p', hover, -, hwaiting, hsame⟩ := exists_over_of_pass hpass
  rw [queue_eq_self hundecided] at hover
  rw [← hwaiting]
  rcases between_waiting_over hover hundecided (hsame.trans hdecided) with hstart | hlt
  · cases hstart
  · simpa [between] using hlt

/-! ## The passes come to an end -/

/-- Over constraints that have waited before, each pass but the last decides one between regions. -/
theorem exists_rounds_of_undecided (sv : RegionSolver)
    (hundecided : ∀ c ∈ cs, sv'.Undecided s c) :
    ∃ k ≤ between cs + 1, ∃ sv' out, Rounds s sv cs k sv' out := by
  -- the constraints on types that wait are never decided and are not counted
  induction hmeasure : between cs using Nat.strong_induction_on generalizing sv sv' cs with
  | h m ih =>
    by_cases hcs : cs = []
    · subst hcs
      exact ⟨0, Nat.zero_le _, sv, _, .none sv⟩
    rcases hpass : sv.pass s cs with ⟨p, outcome⟩
    cases outcome with
    | error e => exact ⟨1, Nat.le_add_left 1 _, _, _, .fails hcs hpass⟩
    | ok _ =>
      by_cases hdecided : p.decided = true
      · have hlt := between_waiting_pass_lt hpass hundecided hdecided
        obtain ⟨k, hk, sv', out, hrounds⟩ :=
          ih (between p.waiting) (hmeasure ▸ hlt) p.solver (waiting_of_pass hpass).2 rfl
        exact ⟨k + 1, by omega, sv', out, .goesOn hcs hpass hdecided hrounds⟩
      · exact ⟨1, Nat.le_add_left 1 _, _, _, .ends hcs hpass (Bool.eq_false_iff.mpr hdecided)⟩

/-- The passes come to an end. Besides the first pass, which replaces the constraints on types, and
the last one, which decides nothing, each decides a constraint between regions. -/
theorem exists_rounds (s : Subst) (sv : RegionSolver) (cs : List RegionConstraint) :
    ∃ k ≤ load s cs + 2, ∃ sv' out, Rounds s sv cs k sv' out := by
  by_cases hcs : cs = []
  · subst hcs
    exact ⟨0, Nat.zero_le _, sv, _, .none sv⟩
  rcases hpass : sv.pass s cs with ⟨p, outcome⟩
  cases outcome with
  | error e => exact ⟨1, by omega, _, _, .fails hcs hpass⟩
  | ok _ =>
    by_cases hdecided : p.decided = true
    · -- the first pass may leave as many constraints between regions as there were
      have hle := between_waiting_pass hpass
      obtain ⟨k, hk, sv', out, hrounds⟩ :=
        exists_rounds_of_undecided p.solver (waiting_of_pass hpass).2
      exact ⟨k + 1, by omega, sv', out, .goesOn hcs hpass hdecided hrounds⟩
    · exact ⟨1, by omega, _, _, .ends hcs hpass (Bool.eq_false_iff.mpr hdecided)⟩

/-! ## Solving is making the passes -/

/-- With enough passes allowed, solving makes all the rounds. -/
theorem solve_of_rounds (h : Rounds s sv sv.constraints k sv' out) (hk : k ≤ sv.limit.toNat) :
    sv.solve s = (sv', out.map fun left => sv'.solution left k) := by
  rw [solve, passes_of_rounds h hk 0]
  cases out with
  | error e => rfl
  | ok left => rw [Except.map, Except.map, Nat.zero_add]

/-- With fewer passes allowed than there are rounds, solving gives up. -/
theorem solve_of_lt_rounds (h : Rounds s sv sv.constraints k sv' out) (hk : sv.limit.toNat < k) :
    ∃ left, (sv.solve s).2 = .error (.solverIterationLimit sv.limit left) := by
  obtain ⟨sv'', left, hcut⟩ := passes_of_lt_rounds h hk 0
  exact ⟨left, by rw [solve, hcut]⟩

/-- Solving that is not cut off makes the passes to their end. -/
theorem exists_rounds_of_solve {result : Except Error RegionSolution}
    (h : sv.solve s = (sv', result))
    (hlimit : ∀ limit left, result ≠ .error (.solverIterationLimit limit left)) :
    ∃ k ≤ sv.limit.toNat, ∃ out, Rounds s sv sv.constraints k sv' out ∧
      result = out.map fun left => sv'.solution left k := by
  obtain ⟨k, -, sv'', out, hrounds⟩ := exists_rounds s sv sv.constraints
  rcases Nat.lt_or_ge sv.limit.toNat k with hlt | hle
  · obtain ⟨left, hcut⟩ := solve_of_lt_rounds hrounds hlt
    rw [h] at hcut
    exact absurd hcut (hlimit _ _)
  · rw [solve_of_rounds hrounds hle] at h
    cases h
    exact ⟨k, hle, out, hrounds, rfl⟩

/-- A solution is what the passes come to. -/
theorem exists_rounds_of_solve_ok {sol : RegionSolution} (h : sv.solve s = (sv', .ok sol)) :
    ∃ k ≤ sv.limit.toNat, Rounds s sv sv.constraints k sv' (.ok sol.pending) ∧
      sol = sv'.solution sol.pending k := by
  obtain ⟨k, hk, out, hrounds, hresult⟩ := exists_rounds_of_solve h (fun _ _ => by rintro ⟨⟩)
  cases out with
  | error e => cases hresult
  | ok pending =>
    cases hresult
    exact ⟨k, hk, hrounds, rfl⟩

/-- A failure other than at the limit is what the passes come to. -/
theorem exists_rounds_of_solve_error {e : Error} (h : sv.solve s = (sv', .error e))
    (hlimit : ∀ limit left, e ≠ .solverIterationLimit limit left) :
    ∃ k, Rounds s sv sv.constraints k sv' (.error e) := by
  obtain ⟨k, -, out, hrounds, hresult⟩ :=
    exists_rounds_of_solve h fun limit left he => hlimit limit left (Except.error.inj he)
  cases out with
  | ok pending => cases hresult
  | error e' =>
    cases hresult
    exact ⟨k, hrounds⟩

/-! ## What becomes of the constraints -/

/-- All the rounds do is to decide region variables. -/
theorem Rounds.grows (h : Rounds s sv cs k sv' out) : sv.Grows sv' := by
  induction h with
  | none sv => exact .refl
  | fails _ hpass => exact grows_of_pass hpass
  | ends _ hpass _ => exact grows_of_pass hpass
  | goesOn _ hpass _ _ ih => exact (grows_of_pass hpass).trans ih

/-- Each constraint of the queue is left, or it was looked at for good. -/
theorem Rounds.passed (h : Rounds s sv cs k sv' out) {pending : List RegionConstraint}
    (hout : out = .ok pending) : ∀ c ∈ queue s cs, c ∈ pending ∨ Passed sv sv' s c := by
  induction h with
  | none sv => simp [queue]
  | fails _ _ => cases hout
  | ends _ hpass _ =>
    cases hout
    exact passed_pass hpass
  | goesOn _ hpass _ hrest ih =>
    intro c hc
    rcases passed_pass hpass c hc with hwaits | hpassed
    · refine (ih hout c (subset_queue s _ hwaits)).imp_right fun hlater => ?_
      exact hlater.mono (grows_of_pass hpass) .refl
    · exact .inr (hpassed.mono .refl hrest.grows)

/-- A failure is one of a constraint of the queue. -/
theorem Rounds.failed (h : Rounds s sv cs k sv' out) {e : Error} (hout : out = .error e) :
    ∃ c ∈ queue s cs, sv'.examine s c = .error e := by
  induction h with
  | none sv => cases hout
  | fails _ hpass =>
    cases hout
    exact failed_pass hpass
  | ends _ _ _ => cases hout
  | goesOn _ hpass _ _ ih =>
    obtain ⟨c, hc, hfails⟩ := ih hout
    exact ⟨c, queue_waiting_subset hpass hc, hfails⟩

/-- What is left are the constraints of the queue that are undecided, in the order of the queue. -/
theorem Rounds.pending_eq (h : Rounds s sv cs k sv' out) {pending : List RegionConstraint}
    (hout : out = .ok pending) : pending = (queue s cs).filter (sv'.Undecided s) := by
  induction h with
  | none sv =>
    cases hout
    rfl
  | fails _ _ => cases hout
  | @ends sv cs p _ hpass hdecided =>
    cases hout
    obtain ⟨hsolver, hwaiting, hundecided⟩ := undecided_pass hpass hdecided
    rw [← undecided_waiting_pass hpass .refl, hsolver, hwaiting]
    exact (List.filter_eq_self.mpr (by simpa using hundecided)).symm
  | @goesOn sv sv' cs p k out _ hpass _ hrest ih =>
    rw [ih hout, queue_eq_self (waiting_of_pass hpass).2, undecided_waiting_pass hpass hrest.grows]

/-- Nothing can be said of a constraint that is left. -/
theorem Rounds.undecided {pending : List RegionConstraint}
    (h : Rounds s sv cs k sv' (.ok pending)) (hc : c ∈ pending) : sv'.Undecided s c := by
  rw [h.pending_eq rfl, List.mem_filter] at hc
  simpa using hc.2

/-- No constraint of the queue can decide a region variable. -/
def Stable (sv : RegionSolver) (s : Subst) (cs : List RegionConstraint) : Prop :=
  ∀ c ∈ queue s cs, ∀ v r, sv.examine s c ≠ .ok (.decides v r)

/-- A solver that has solved its constraints is stable. -/
theorem Rounds.stable {pending : List RegionConstraint}
    (h : Rounds s sv cs k sv' (.ok pending)) : sv'.Stable s cs := by
  intro c hc v r hdecides
  obtain ⟨x, hjoins, hv, -⟩ := joins_of_decides hdecides
  rcases h.passed rfl c hc with hleft | hpassed
  · -- what is left waits
    rw [examine_eq_waits_iff.mpr (h.undecided hleft)] at hdecides
    cases hdecides
  · rcases hpassed.holds with hholds | ⟨type, region, rfl, -⟩
    · -- what holds is between known regions
      obtain ⟨a, ha⟩ := hholds.exists_known hjoins
      rw [hv] at ha
      cases ha
    · rcases hjoins with h | h | h | h <;> cases h

/-- The passes fail for no other reason than that a constraint fails. -/
theorem Rounds.ne_limit (h : Rounds s sv cs k sv' out) (limit left : Int) :
    out ≠ .error (.solverIterationLimit limit left) := by
  intro hout
  obtain ⟨c, -, hfails⟩ := h.failed hout
  cases refused hfails

end Generics.RegionSolver
