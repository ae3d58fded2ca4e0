import Generics.Proofs.Ty.RegionSlots
import Generics.Region.Elision

/-!
# What elision fills in

The inputs of a signature are the types of its receiver and its parameters. Elision goes over their
region positions from left to right and puts a region variable of its own in each that is elided. The
elided positions of the output all take one region, that of the receiver or of the only input position.

Types are compared through their skeletons and their region positions, which together say all there is
to know of a type whose functions have return types.

## Main results

* `RegionSolver.fillFrom`: the regions that go into the input positions;
* `RegionSolver.exists_elide`: elision fills in the inputs by `fillFrom` and then looks at the output;
* `RegionSolver.elide_completes`: when elision fails, and what it makes of a signature otherwise.
-/

namespace Generics

namespace Signature

variable (sig : Signature)

/-- The region positions of the receiver, if there is one. -/
def receiverSlots : List Region := sig.receiver.toList.flatMap Ty.regionSlots

/-- The types of the inputs, the receiver's first. -/
def inputTypes : List Ty := sig.receiver.toList ++ sig.params

/-- The region positions of the inputs in source order. -/
def inputSlots : List Region := sig.inputTypes.flatMap Ty.regionSlots

/-- The region positions of the output, if there is one. -/
def outputSlots : List Region := sig.ret.toList.flatMap Ty.regionSlots

/-- There is nothing that an elided region of the output could stand for. -/
def MissesRegion : Prop :=
  (∃ r ∈ sig.outputSlots, r.isElided = true) ∧ sig.receiverSlots = [] ∧ sig.inputSlots.length ≠ 1

end Signature

/-- The regions `filled` stand in the place of `slots`: those that were written are kept, and each
elided one has become a region variable that was not issued before and stands in no other place. -/
structure Region.FilledIn (issued slots filled : List Region) : Prop where
  length : filled.length = slots.length
  written : ∀ (i : Nat) (r : Region), slots[i]? = some r → r.isElided = false → filled[i]? = some r
  elided : ∀ (i : Nat) (r : Region), slots[i]? = some r → r.isElided = true →
    ∃ n, filled[i]? = some (Region.numbered n) ∧ Region.numbered n ∉ issued ∧
      ∀ j : Nat, filled[j]? = some (Region.numbered n) → j = i

/-- The elision fills in the regions of the signature and changes nothing else. -/
structure Elision.Completes (el : Elision) (issued : List Region) (sig : Signature) : Prop where
  name : el.signature.name = sig.name
  receiver : el.signature.receiver.map Ty.skeleton = sig.receiver.map Ty.skeleton
  params : el.signature.params.map Ty.skeleton = sig.params.map Ty.skeleton
  ret : el.signature.ret.map Ty.skeleton = sig.ret.map Ty.skeleton
  /-- The inputs are those of the new signature, in the order in which they are printed. -/
  inputs : el.inputs = el.signature.inputSlots
  printed : (el.signature.inputTypes.flatMap Ty.tokens).filterMap Token.region? = el.inputs
  filledIn : Region.FilledIn issued sig.inputSlots el.inputs
  /-- An elided region of the output has become the region of the elision. -/
  outputs : el.signature.outputSlots =
    sig.outputSlots.map fun r => if r.isElided then el.output.getD .elided else r
  /-- There is such a region if there is need for it: the receiver's first, or else the only one. -/
  output : (∃ r ∈ sig.outputSlots, r.isElided = true) →
    ∃ out, el.output = some out ∧ ((∃ others, el.signature.receiverSlots = out :: others) ∨
      el.signature.receiverSlots = [] ∧ el.inputs = [out])
  /-- No region is elided any more. -/
  complete : ∀ r ∈ el.signature.inputSlots ++ el.signature.outputSlots, r.isElided = false

namespace RegionSolver

/-! ## Filling in input positions -/

/-- The regions with the region variables from number `n` on in place of the elided ones. -/
def fillFrom (n : Nat) : List Region → List Region
  | [] => []
  | r :: rs => if r.isElided then .numbered n :: fillFrom (n + 1) rs else r :: fillFrom n rs

/-- A numbered region is not elided. -/
theorem isElided_numbered (n : Nat) : (Region.numbered n).isElided = false := by
  rw [Bool.eq_false_iff]
  intro h
  have hname : (Region.numbered n).name.toList = [] := by rw [Region.isElided_iff.mp h]; rfl
  simp [Region.numbered] at hname

/-- Regions are filled in one after the other. -/
theorem fillFrom_append (n : Nat) (rs ss : List Region) :
    fillFrom n (rs ++ ss) = fillFrom n rs ++ fillFrom (n + rs.countP Region.isElided) ss := by
  induction rs generalizing n with
  | nil => rfl
  | cons r rs ih =>
    cases hr : r.isElided with
    | true => simp [fillFrom, hr, ih, Nat.add_assoc, Nat.add_comm 1]
    | false => simp [fillFrom, hr, ih]

/-- What stands in each position afterwards. -/
theorem getElem?_fillFrom (n : Nat) (rs : List Region) (i : Nat) :
    (fillFrom n rs)[i]? = rs[i]?.map fun r =>
      if r.isElided then .numbered (n + (rs.take i).countP Region.isElided) else r := by
  induction rs generalizing n i with
  | nil => rfl
  | cons r rs ih =>
    cases i with
    | zero =>
      rw [fillFrom]
      split <;> simp [*]
    | succ i =>
      cases hr : r.isElided with
      | true => simp [fillFrom, hr, ih, Nat.add_assoc, Nat.add_comm 1]
      | false => simp [fillFrom, hr, ih]

/-- Filling in keeps the number of regions. -/
theorem length_fillFrom (n : Nat) (rs : List Region) : (fillFrom n rs).length = rs.length := by
  induction rs generalizing n with
  | nil => rfl
  | cons r rs ih =>
    rw [fillFrom]
    split <;> simp [ih]

/-- No region is elided once all are filled in. -/
theorem isElided_of_mem_fillFrom {n : Nat} {rs : List Region} {r : Region}
    (h : r ∈ fillFrom n rs) : r.isElided = false := by
  obtain ⟨i, hi⟩ := List.getElem?_of_mem h
  rw [getElem?_fillFrom] at hi
  obtain ⟨s, -, rfl⟩ := Option.map_eq_some_iff.mp hi
  cases hs : s.isElided with
  | true => simp [isElided_numbered]
  | false => simpa using hs

/-- After an elided position there is one more behind. -/
theorem countP_take_lt {rs : List Region} {i j : Nat} {r : Region} (hij : i < j)
    (hr : rs[i]? = some r) (helided : r.isElided = true) :
    (rs.take i).countP Region.isElided < (rs.take j).countP Region.isElided := by
  have hle : (rs.take (i + 1)).countP Region.isElided ≤ (rs.take j).countP Region.isElided :=
    (List.take_sublist_take_left hij).countP_le
  rw [List.take_add_one, hr, List.countP_append] at hle
  simp only [Option.toList_some, List.countP_singleton, helided, if_true] at hle
  omega

/-- The elided positions get region variables that are new and differ from each other, if no region
was written like a region variable. -/
theorem filledIn_fillFrom (sv : RegionSolver) {rs : List Region}
    (hrs : ∀ r ∈ rs, ∀ n, r ≠ .numbered n) :
    Region.FilledIn sv.issuedRegions rs (fillFrom sv.issued rs) where
  length := length_fillFrom _ rs
  written i r hr hwritten := by
    rw [getElem?_fillFrom, hr]
    simp [hwritten]
  elided i r hr helided := by
    refine ⟨sv.issued + (rs.take i).countP Region.isElided, ?_, ?_, fun j hj => ?_⟩
    · rw [getElem?_fillFrom, hr]
      simp [helided]
    · -- the numbers that were issued are all lower
      intro hmem
      obtain ⟨k, hk, heq⟩ := List.mem_map.mp hmem
      have := Region.numbered_injective heq
      have := List.mem_range.mp hk
      omega
    · -- another elided position has another number of them before it
      rw [getElem?_fillFrom] at hj
      obtain ⟨s, hs, heq⟩ := Option.map_eq_some_iff.mp hj
      cases hselided : s.isElided with
      | false =>
        rw [hselided] at heq
        exact absurd heq (hrs s (List.mem_of_getElem? hs) _)
      | true =>
        rw [hselided, if_pos rfl] at heq
        have hcount := Nat.add_left_cancel (Region.numbered_injective heq)
        rcases Nat.lt_trichotomy j i with hlt | rfl | hlt
        · exact absurd hcount (Nat.ne_of_lt (countP_take_lt hlt hs hselided))
        · rfl
        · exact absurd hcount.symm (Nat.ne_of_lt (countP_take_lt hlt hr helided))

/-! ## The inputs of a signature -/

/-- The solver after it issued a number of region variables. -/
def issueMany (sv : RegionSolver) (n : Nat) : RegionSolver := { sv with issued := sv.issued + n }

/-- Issuing goes on from where it stopped. -/
theorem issueMany_issueMany (sv : RegionSolver) (m n : Nat) :
    (sv.issueMany m).issueMany n = sv.issueMany (m + n) := by
  simp [issueMany, Nat.add_assoc]

/-- Going over input positions fills them in. -/
theorem run_mapM_fillInput (rs : List Region) (sv : RegionSolver) (inputs : List Region) :
    (rs.mapM fillInput).run (sv, inputs) =
      (fillFrom sv.issued rs, sv.issueMany (rs.countP Region.isElided),
        inputs ++ fillFrom sv.issued rs) := by
  induction rs generalizing sv inputs with
  | nil =>
    rw [List.mapM_nil, StateT.run_pure]
    simp [fillFrom, issueMany, pure]
  | cons r rs ih =>
    cases hr : r.isElided with
    | true =>
      -- an elided region gets the next number, which is used up for those that follow
      have hfirst : (fillInput r).run (sv, inputs) =
          (.numbered sv.issued, sv.issueMany 1, inputs ++ [.numbered sv.issued]) := by
        simp [fillInput, hr, StateT.run, RegionSolver.fresh, issueMany]
      rw [List.mapM_cons, run_bind_eq hfirst, run_bind_eq (ih _ _), issueMany_issueMany,
        StateT.run_pure]
      simp [fillFrom, hr, Nat.add_comm 1, issueMany, pure]
    | false =>
      have hfirst : (fillInput r).run (sv, inputs) = (r, sv, inputs ++ [r]) := by
        simp [fillInput, hr, StateT.run]
      rw [List.mapM_cons, run_bind_eq hfirst, run_bind_eq (ih _ _), StateT.run_pure]
      simp [fillFrom, hr, pure]

/-- Filling in a type gives fresh regions to its elided positions, in order, and changes nothing
else. -/
theorem exists_fillType (sv : RegionSolver) (t : Ty) :
    ∃ u, sv.fillType t = (u, fillFrom sv.issued t.regionSlots,
        sv.issueMany (t.regionSlots.countP Region.isElided)) ∧
      u.regionSlots = fillFrom sv.issued t.regionSlots ∧ u.skeleton = t.skeleton := by
  obtain ⟨u, hu, hslots, hskeleton⟩ :=
    Ty.run_mapRegionsM fillInput t _ _ _ (run_mapM_fillInput t.regionSlots sv [])
  refine ⟨u, ?_, hslots, hskeleton⟩
  rw [fillType, hu]
  rfl

/-- The types of a list are filled in one after the other. -/
theorem exists_fillTypes (sv : RegionSolver) (ts : List Ty) :
    ∃ us, sv.fillTypes ts = (us, fillFrom sv.issued (ts.flatMap Ty.regionSlots),
        sv.issueMany ((ts.flatMap Ty.regionSlots).countP Region.isElided)) ∧
      us.flatMap Ty.regionSlots = fillFrom sv.issued (ts.flatMap Ty.regionSlots) ∧
      us.map Ty.skeleton = ts.map Ty.skeleton := by
  induction ts generalizing sv with
  | nil => exact ⟨[], rfl, rfl, rfl⟩
  | cons t ts ih =>
    obtain ⟨u, hu, hslots, hskeleton⟩ := exists_fillType sv t
    obtain ⟨us, hus, hslots', hskeletons⟩ := ih (sv.issueMany (t.regionSlots.countP Region.isElided))
    refine ⟨u :: us, ?_, ?_, by rw [List.map_cons, List.map_cons, hskeleton, hskeletons]⟩
    · rw [fillTypes, hu]
      simp only [hus, issueMany_issueMany, List.flatMap_cons, fillFrom_append, List.countP_append]
      rfl
    · rw [List.flatMap_cons, hslots, hslots', List.flatMap_cons, fillFrom_append]
      rfl

/-- Fills in the type of the receiver, if there is one. -/
def fillReceiver (sv : RegionSolver) : Option Ty → Option Ty × List Region × RegionSolver
  | none => (none, [], sv)
  | some t => (some (sv.fillType t).1, (sv.fillType t).2)

/-- A receiver is filled in like a parameter, if there is one. -/
theorem exists_fillReceiver (sv : RegionSolver) (receiver : Option Ty) :
    ∃ u, sv.fillReceiver receiver =
        (u, fillFrom sv.issued (receiver.toList.flatMap Ty.regionSlots),
          sv.issueMany ((receiver.toList.flatMap Ty.regionSlots).countP Region.isElided)) ∧
      u.toList.flatMap Ty.regionSlots =
        fillFrom sv.issued (receiver.toList.flatMap Ty.regionSlots) ∧
      u.map Ty.skeleton = receiver.map Ty.skeleton := by
  cases receiver with
  | none => exact ⟨none, rfl, rfl, rfl⟩
  | some t =>
    obtain ⟨u, hu, hslots, hskeleton⟩ := exists_fillType sv t
    refine ⟨some u, ?_, ?_, congrArg some hskeleton⟩
    · simp [fillReceiver, hu]
    · simp [hslots]

/-! ## The output of a signature -/

/-- The signature with a region in the place of the elided regions of its output. -/
def withOutput (sig : Signature) (out : Region) : Signature :=
  { sig with ret := sig.ret.map (Ty.mapRegions fun r => if r.isElided then out else r) }

/-- What comes of a signature whose inputs are filled in with the given regions. -/
def elideOutput (sig : Signature) (receiver params : List Region) : Except Error Elision :=
  if sig.outputSlots.any Region.isElided then
    match outputRegion? receiver params with
    | none => .error (.missingRegion sig.name (receiver ++ params).length)
    | some out => .ok ⟨withOutput sig out, receiver ++ params, some out⟩
  else .ok ⟨sig, receiver ++ params, none⟩

/-- Elision fills in the receiver, then the parameters and then the output. -/
theorem elide_eq (sv : RegionSolver) (sig : Signature) :
    sv.elide sig =
      let (receiver, receiverRegions, sv) := sv.fillReceiver sig.receiver
      let (params, paramRegions, sv) := sv.fillTypes sig.params
      (sv, elideOutput { sig with receiver, params } receiverRegions paramRegions) := by
  obtain ⟨name, receiver, params, ret⟩ := sig
  cases ret with
  | none => cases receiver <;> rfl
  | some ret =>
    -- the check looks for elided regions in the return type, filled inputs or not
    have hslots : ∀ receiver params,
        (Signature.mk name receiver params (some ret)).outputSlots.any Region.isElided =
          ret.hasElidedRegion := fun _ _ => by simp [Signature.outputSlots, Ty.hasElidedRegion]
    simp only [elide, elideOutput, hslots]
    cases ret.hasElidedRegion with
    | false => cases receiver <;> rfl
    | true =>
      cases receiver with
      | none =>
        cases hout : outputRegion? [] (sv.fillTypes params).2.1 <;>
          simp [fillReceiver, hout, withOutput]
      | some t =>
        cases hout : outputRegion? (sv.fillType t).2.1 ((sv.fillType t).2.2.fillTypes params).2.1 <;>
          simp [fillReceiver, hout, withOutput]

/-- The signature `filled` has the region variables from number `n` on in the place of the elided
regions of the inputs of `sig`. -/
structure FillsInputs (n : Nat) (sig filled : Signature) : Prop where
  name : filled.name = sig.name
  ret : filled.ret = sig.ret
  receiver : filled.receiver.map Ty.skeleton = sig.receiver.map Ty.skeleton
  params : filled.params.map Ty.skeleton = sig.params.map Ty.skeleton
  receiverSlots : filled.receiverSlots = fillFrom n sig.receiverSlots
  inputSlots : filled.inputSlots = fillFrom n sig.inputSlots

/-- Elision fills in the inputs and looks at the output then. -/
theorem exists_elide (sv : RegionSolver) (sig : Signature) :
    ∃ filled, FillsInputs sv.issued sig filled ∧
      sv.elide sig = (sv.issueMany (sig.inputSlots.countP Region.isElided),
        elideOutput filled filled.receiverSlots (filled.params.flatMap Ty.regionSlots)) := by
  obtain ⟨receiver, hreceiver, hslots, hskeleton⟩ := exists_fillReceiver sv sig.receiver
  obtain ⟨params, hparams, hslots', hskeletons⟩ := exists_fillTypes
    (sv.issueMany ((sig.receiver.toList.flatMap Ty.regionSlots).countP Region.isElided)) sig.params
  have hinputs : sig.inputSlots =
      sig.receiver.toList.flatMap Ty.regionSlots ++ sig.params.flatMap Ty.regionSlots := by
    rw [Signature.inputSlots, Signature.inputTypes, List.flatMap_append]
  refine ⟨{ sig with receiver, params }, ⟨rfl, rfl, hskeleton, hskeletons, hslots, ?_⟩, ?_⟩
  · rw [hinputs, fillFrom_append, Signature.inputSlots, Signature.inputTypes, List.flatMap_append,
      hslots, hslots']
    rfl
  · rw [elide_eq, hreceiver]
    simp only [hparams, issueMany_issueMany, hinputs, List.countP_append, ← hslots, ← hslots']
    rfl

/-- There is no region for the output if there is no receiver with regions and not just one region
of the parameters. -/
theorem outputRegion?_eq_none_iff {receiver params : List Region} :
    outputRegion? receiver params = none ↔ receiver = [] ∧ (receiver ++ params).length ≠ 1 := by
  unfold outputRegion?
  split
  · simp
  · simp
  · rename_i params hne
    simp only [List.nil_append, true_and, true_iff]
    intro hlen
    obtain ⟨r, rfl⟩ := List.length_eq_one_iff.mp hlen
    exact hne r rfl

/-- The output gets the first region of the receiver, or the only one of the parameters. -/
theorem outputRegion?_eq_some_iff {receiver params : List Region} {out : Region} :
    outputRegion? receiver params = some out ↔
      (∃ others, receiver = out :: others) ∨ receiver = [] ∧ receiver ++ params = [out] := by
  unfold outputRegion?
  split
  · simp [eq_comm]
  · simp
  · rename_i params hne
    simp only [reduceCtorEq, List.nil_append, true_and, exists_false, false_or, false_iff]
    exact fun h => hne out h

/-- The region for the output goes to all its elided positions. -/
theorem outputSlots_withOutput (sig : Signature) (out : Region) :
    (withOutput sig out).outputSlots =
      sig.outputSlots.map fun r => if r.isElided then out else r := by
  obtain ⟨name, receiver, params, ret⟩ := sig
  cases ret with
  | none => rfl
  | some ret => simp [withOutput, Signature.outputSlots, Ty.regionSlots_mapRegions]

/-- Otherwise the output stays the same. -/
theorem ret_withOutput (sig : Signature) (out : Region) :
    (withOutput sig out).ret.map Ty.skeleton = sig.ret.map Ty.skeleton := by
  obtain ⟨name, receiver, params, ret⟩ := sig
  cases ret with
  | none => rfl
  | some ret => simp [withOutput, Ty.skeleton_mapRegions]

/-- If no region is elided, all regions are printed. -/
theorem printed_of_complete {ts : List Ty}
    (h : ∀ r ∈ ts.flatMap Ty.regionSlots, r.isElided = false) :
    (ts.flatMap Ty.tokens).filterMap Token.region? = ts.flatMap Ty.regionSlots := by
  rw [List.filterMap_flatMap]
  refine List.flatMap_congr fun t ht => Ty.filterMap_region?_tokens fun r hr => h r ?_
  exact List.mem_flatMap.mpr ⟨t, ht, hr⟩

section

variable {sv : RegionSolver} {sig filled : Signature}

/-- Filling in the inputs leaves the output alone. -/
theorem FillsInputs.outputSlots (h : FillsInputs sv.issued sig filled) :
    filled.outputSlots = sig.outputSlots := by
  rw [Signature.outputSlots, h.ret]
  rfl

/-- No region of the inputs is elided once they are filled in. -/
theorem FillsInputs.isElided_of_mem (h : FillsInputs sv.issued sig filled) {r : Region}
    (hr : r ∈ filled.inputSlots) : r.isElided = false := by
  rw [h.inputSlots] at hr
  exact isElided_of_mem_fillFrom hr

/-- The signature is completed if no region of its output is elided. -/
theorem FillsInputs.completes (h : FillsInputs sv.issued sig filled)
    (hwritten : ∀ r ∈ sig.inputSlots, ∀ n, r ≠ .numbered n)
    (hnone : ∀ r ∈ sig.outputSlots, r.isElided = false) :
    Elision.Completes ⟨filled, filled.inputSlots, none⟩ sv.issuedRegions sig where
  name := h.name
  receiver := h.receiver
  params := h.params
  ret := congrArg (Option.map Ty.skeleton) h.ret
  inputs := rfl
  printed := printed_of_complete fun _ hr => h.isElided_of_mem hr
  filledIn := by
    rw [h.inputSlots]
    exact filledIn_fillFrom sv hwritten
  outputs := by
    -- nothing was put into the output, as nothing was elided there
    have hout : ∀ r ∈ sig.outputSlots, (if r.isElided then .elided else r) = r := by
      intro r hr
      rw [hnone r hr]
      rfl
    exact h.outputSlots.trans ((List.map_congr_left hout).trans (List.map_id' _)).symm
  output := by
    rintro ⟨r, hr, helided⟩
    rw [hnone r hr] at helided
    cases helided
  complete r hr := by
    rcases List.mem_append.mp hr with hr | hr
    · exact h.isElided_of_mem hr
    · rw [h.outputSlots] at hr
      exact hnone r hr

/-- The signature is completed by the region that the elided ones of the output stand for. -/
theorem FillsInputs.completes_withOutput (h : FillsInputs sv.issued sig filled)
    (hwritten : ∀ r ∈ sig.inputSlots, ∀ n, r ≠ .numbered n) {out : Region}
    (hout : (∃ others, filled.receiverSlots = out :: others) ∨
      filled.receiverSlots = [] ∧ filled.inputSlots = [out]) :
    Elision.Completes ⟨withOutput filled out, filled.inputSlots, some out⟩ sv.issuedRegions sig := by
  have houtputs : (withOutput filled out).outputSlots =
      sig.outputSlots.map fun r => if r.isElided then out else r := by
    rw [outputSlots_withOutput, h.outputSlots]
  -- the region for the output is one of the inputs, so it is not elided itself
  have hmem : out ∈ filled.inputSlots := by
    rcases hout with ⟨others, hreceiver⟩ | ⟨-, hinputs⟩
    · rw [Signature.inputSlots, Signature.inputTypes, List.flatMap_append]
      refine List.mem_append_left _ ?_
      show out ∈ filled.receiverSlots
      rw [hreceiver]
      exact List.mem_cons_self
    · rw [hinputs]
      exact List.mem_singleton_self out
  refine ⟨h.name, h.receiver, h.params, ?_, rfl, ?_, ?_, houtputs, fun _ => ⟨out, rfl, hout⟩, ?_⟩
  · rw [ret_withOutput, h.ret]
  · exact printed_of_complete fun _ hr => h.isElided_of_mem hr
  · rw [h.inputSlots]
    exact filledIn_fillFrom sv hwritten
  · intro r hr
    rcases List.mem_append.mp hr with hr | hr
    · exact h.isElided_of_mem hr
    · rw [houtputs] at hr
      obtain ⟨s, -, rfl⟩ := List.mem_map.mp hr
      cases hs : s.isElided with
      | true => exact h.isElided_of_mem hmem
      | false => simpa using hs

end

/-- Elision fails if and only if there is nothing that an elided region of the output could stand for,
and otherwise fills in the whole signature. Regions of the inputs must not be written like region
variables. -/
theorem elide_completes (sv : RegionSolver) (sig : Signature)
    (hwritten : ∀ r ∈ sig.inputSlots, ∀ n, r ≠ .numbered n) :
    ((∃ e, (sv.elide sig).2 = .error e) ↔ sig.MissesRegion) ∧
      (∀ e, (sv.elide sig).2 = .error e → e = .missingRegion sig.name sig.inputSlots.length) ∧
      ∀ el, (sv.elide sig).2 = .ok el → el.Completes sv.issuedRegions sig := by
  obtain ⟨filled, hfilled, helide⟩ := exists_elide sv sig
  have hinputs : filled.receiverSlots ++ filled.params.flatMap Ty.regionSlots = filled.inputSlots :=
    (List.flatMap_append ..).symm
  -- filling in does not change how many positions there are, on which the choice depends
  have hlength : filled.inputSlots.length = sig.inputSlots.length := by
    rw [hfilled.inputSlots, length_fillFrom]
  have hreceiver : filled.receiverSlots = [] ↔ sig.receiverSlots = [] := by
    rw [hfilled.receiverSlots, ← List.length_eq_zero_iff, length_fillFrom, List.length_eq_zero_iff]
  rw [helide]
  simp only [elideOutput, hfilled.outputSlots, hinputs, hfilled.name]
  cases hany : sig.outputSlots.any Region.isElided with
  | false =>
    have hnone : ∀ r ∈ sig.outputSlots, r.isElided = false := by simpa using hany
    refine ⟨⟨by rintro ⟨e, ⟨⟩⟩, ?_⟩, by rintro e ⟨⟩, ?_⟩
    · rintro ⟨⟨r, hr, helided⟩, -⟩
      rw [hnone r hr] at helided
      cases helided
    · rintro el ⟨⟩
      exact hfilled.completes hwritten hnone
  | true =>
    have hsome : ∃ r ∈ sig.outputSlots, r.isElided = true := by simpa using hany
    cases hout : outputRegion? filled.receiverSlots (filled.params.flatMap Ty.regionSlots) with
    | none =>
      obtain ⟨hnil, hne⟩ := outputRegion?_eq_none_iff.mp hout
      rw [hinputs, hlength] at hne
      refine ⟨⟨fun _ => ⟨hsome, hreceiver.mp hnil, hne⟩, fun _ => ⟨_, rfl⟩⟩, ?_, by rintro el ⟨⟩⟩
      rintro e ⟨⟩
      rw [hlength]
    | some out =>
      have hcases := outputRegion?_eq_some_iff.mp hout
      rw [hinputs] at hcases
      refine ⟨⟨by rintro ⟨e, ⟨⟩⟩, ?_⟩, by rintro e ⟨⟩, ?_⟩
      · rintro ⟨-, hnil, hne⟩
        rw [outputRegion?_eq_none_iff.mpr] at hout
        · cases hout
        · rw [hinputs, hlength]
          exact ⟨hreceiver.mpr hnil, hne⟩
      · rintro el ⟨⟩
        exact hfilled.completes_withOutput hwritten hcases

/-- A method with a written region behind the elided one of its receiver, a parameter that is a function
without a return type, and an output with a written and an elided region. -/
theorem elide_completes_method :
    let sig : Signature := ⟨"get", some (.ref .elided true (.named "Map" [⟨"'a"⟩] [])),
      [.fn [.ref .elided false (.prim "u8")] none, .named "Key" [.elided, ⟨"'a"⟩] []],
      some (.ref ⟨"'a"⟩ false (.named "Entry" [.elided] []))⟩
    (∀ r ∈ sig.inputSlots, ∀ n, r ≠ .numbered n) ∧ ¬ sig.MissesRegion ∧
      ∃ el, (({ issued := 2 } : RegionSolver).elide sig).2 = .ok el ∧
        el.Completes [⟨"'_0"⟩, ⟨"'_1"⟩] sig ∧ el.output = some ⟨"'_2"⟩ := by
  intro sig
  have hwritten : ∀ r ∈ sig.inputSlots, ∀ n, r ≠ .numbered n := by
    intro r hr n heq
    -- a region variable has an underscore behind its quote
    have hmark : ∀ r ∈ sig.inputSlots, r.name.toList[1]? ≠ some '_' := by decide
    refine hmark r hr ?_
    rw [heq, Region.numbered, String.toList_ofList]
    rfl
  obtain ⟨hfails, -, hok⟩ := elide_completes { issued := 2 } sig hwritten
  refine ⟨hwritten, ?_, _, rfl, hok _ rfl, rfl⟩
  rintro ⟨-, hnil, -⟩
  cases hnil

end RegionSolver

end Generics
