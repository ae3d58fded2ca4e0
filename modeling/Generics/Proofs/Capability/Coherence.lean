import Generics.Proofs.Capability.Registry
import Generics.Proofs.Fresh
import Generics.Proofs.Subst.Matching

/-!
# Coherence

Two implementations of a capability overlap when some type and arguments have the form of both. An
overlap is looked for with unification, after the variables of one header are renamed apart from
those of the other; an implementation is selected with matching, after its header is renamed apart
from the target. Both come down to values under assignments, so implementations that do not overlap
never match the same target.

The counter of fresh variables has to have enough numbers left for the renamings.

## Main results

* `Catalog.overlap_iff`: headers overlap exactly if they have an instance in common;
* `Catalog.implement_eq_ok_iff`: which implementations are accepted, and how they are stored;
* `Registry.Reachable.coherent`: no two stored implementations of a capability overlap;
* `Registry.Reachable.countP_accepts_le_one`: at most one of them matches.
-/

namespace Generics

/-! ## Common instances -/

/-- The two types have an instance in common; each has its variables for itself. -/
def Ty.CommonInstance (a b : Ty) : Prop := ∃ σ τ, a.valueAt σ = b.valueAt τ

theorem Ty.CommonInstance.symm {a b : Ty} (h : a.CommonInstance b) : b.CommonInstance a := by
  obtain ⟨σ, τ, heq⟩ := h
  exact ⟨τ, σ, heq.symm⟩

namespace Catalog

/-- Headers overlap if unification succeeds after one is renamed apart from the other. -/
theorem overlap_eq (a b : Ty) :
    overlap a b = (Subst.empty.unify a ((Fresher.after [a]).renameAlone b).1).2.isOk := by
  unfold overlap
  simp only
  split
  · rename_i hok
    rw [hok]
    rfl
  · rename_i herror
    rw [herror]
    rfl

/-- Headers that overlap have an instance in common. -/
theorem commonInstance_of_overlap {a b : Ty} (h : overlap a b = true) : a.CommonInstance b := by
  rw [overlap_eq] at h
  generalize hrun : Subst.empty.unify a _ = run at h
  obtain ⟨s, outcome⟩ := run
  cases outcome with
  | error e => cases h
  | ok =>
    -- the substitution that unification ends with solves itself
    have hs := (Subst.grows_of_unify hrun).acyclic Subst.acyclic_empty
    have hvalue := ((Subst.acyclic_empty.solves_unify_iff hrun _).mp hs.solves_image).2
    rw [Fresher.renameAlone_eq, Ty.valueAt_rename] at hvalue
    exact ⟨_, _, hvalue⟩

/-- With enough numbers left, headers that have an instance in common overlap. -/
theorem overlap_of_commonInstance {a b : Ty} (hroom : a.LeavesRoom b) (h : a.CommonInstance b) :
    overlap a b = true := by
  obtain ⟨σ, τ, heq⟩ := h
  obtain ⟨ρ, hrenamed, hapart, hinj⟩ := Fresher.exists_renaming hroom
  rw [overlap_eq, hrenamed]
  -- one assignment that is `σ` on the variables of `a` and `τ` on the renamed variables of `b`
  let joined : VarId → Ty := fun w =>
    if w ∈ a.vars then σ w else τ (Function.invFunOn ρ {v | v ∈ b.vars} w)
  have hleft : a.valueAt joined = a.valueAt σ := Ty.valueAt_congr fun v hv => if_pos hv
  have hright : (b.subst fun v => .var (ρ v)).valueAt joined = b.valueAt τ := by
    rw [Ty.valueAt_rename]
    refine Ty.valueAt_congr fun v hv => ?_
    show (if ρ v ∈ a.vars then _ else _) = _
    rw [if_neg (hapart v hv), hinj.leftInvOn_invFunOn hv]
  generalize hrun : Subst.empty.unify a _ = run
  obtain ⟨s, outcome⟩ := run
  cases outcome with
  | ok => rfl
  | error e =>
    have hsolves : Subst.empty.Solves joined := fun v t hv => by cases hv
    have hne := Subst.acyclic_empty.valueAt_ne_of_unify_error hrun hsolves
    rw [hleft, hright] at hne
    exact absurd heq hne

/-- With enough numbers left, headers overlap exactly if they have an instance in common. -/
theorem overlap_iff {a b : Ty} (hroom : a.LeavesRoom b) : overlap a b = true ↔ a.CommonInstance b :=
  ⟨commonInstance_of_overlap, overlap_of_commonInstance hroom⟩

end Catalog

/-! ## Implementations that match -/

/-- The header of the implementation, renamed apart from the type and arguments, matches them. -/
def Implementation.accepts (i : Implementation) (t : Ty) (args : List Ty) : Bool :=
  let target := headerOf t args
  (Subst.empty.matchPattern ((Fresher.after [target]).renameAlone i.header).1 target).2

/-- Selecting tries whether the implementation matches. -/
theorem Selection.isSome_of? (i : Implementation) (t : Ty) (args : List Ty) :
    (Selection.of? i (Implementation.headerOf t args)).isSome = i.accepts t args := by
  unfold Selection.of? Implementation.accepts Fresher.renameAlone
  simp only
  split
  · rename_i hmatch
    rw [hmatch]
    rfl
  · rename_i hmatch
    rw [hmatch]
    rfl

/-- With enough numbers left, a type and arguments that match are an instance of the header. -/
theorem Implementation.exists_valueAt_of_accepts {i : Implementation} {t : Ty} {args : List Ty}
    (hroom : (headerOf t args).LeavesRoom i.header) (h : i.accepts t args = true) :
    ∃ σ, i.header.valueAt σ = (headerOf t args).erase := by
  obtain ⟨ρ, hrenamed, hapart, -⟩ := Fresher.exists_renaming hroom
  unfold Implementation.accepts at h
  simp only [hrenamed] at h
  have hdisjoint : ∀ v ∈ (headerOf t args).vars,
      v ∉ (i.header.subst fun v => .var (ρ v)).vars := by
    intro v hv hmem
    obtain ⟨u, hu, hvu⟩ := Ty.mem_vars_subst.mp hmem
    obtain rfl : v = ρ u := by simpa [Ty.vars] using hvu
    exact hapart u hu hv
  obtain ⟨σ, hσ⟩ := Subst.exists_valueAt_of_matchPattern hdisjoint (Prod.ext rfl h)
  rw [Ty.valueAt_rename] at hσ
  exact ⟨_, hσ⟩

namespace Catalog

/-! ## What is stored -/

/-- The implementation is stored as `j`: its capability is declared, it has the associated types of
the capability, and its arguments are filled in. -/
def Stores (c : Catalog) (i j : Implementation) : Prop :=
  ∃ cap args, c.find? i.capability = some cap ∧ cap.fillArgs i.args = .ok args ∧
    checkAssociated cap i = .ok () ∧ j = { i with args }

/-- The implementation overlaps no stored one. -/
theorem checkCoherence_eq_ok_iff {c : Catalog} {i : Implementation} {cap : Capability}
    {args : List Ty} (hfind : c.find? i.capability = some cap)
    (hargs : cap.fillArgs i.args = .ok args) :
    c.checkCoherence i = .ok () ↔ ∀ k ∈ c.implementationsOf i.capability,
      overlap (Implementation.headerOf i.type args) k.header = false := by
  unfold checkCoherence
  rw [find_eq_ok_iff.mpr hfind]
  simp only [bind, Except.bind, hargs, find?_name hfind]
  split
  · rename_i k hk
    have hoverlap := List.find?_some hk
    simp only [reduceCtorEq, false_iff, not_forall]
    exact ⟨k, List.mem_of_find?_eq_some hk, by simpa using hoverlap⟩
  · rename_i hnone
    simpa [pure, Except.pure] using hnone

/-- An implementation is accepted if it can be stored and overlaps no implementation of the same
capability. It is stored after the others. -/
theorem implement_eq_ok_iff {c c' : Catalog} {i : Implementation} :
    c.implement i = .ok c' ↔ ∃ j, c.Stores i j ∧
      (∀ k ∈ c.implementationsOf j.capability, overlap j.header k.header = false) ∧
      c' = { c with implementations := c.implementations ++ [j] } := by
  constructor
  · intro h
    obtain ⟨cap, hfind, h⟩ := exists_ok_of_bind_eq_ok h
    obtain ⟨_, hcoherent, h⟩ := exists_ok_of_bind_eq_ok h
    obtain ⟨_, hassociated, h⟩ := exists_ok_of_bind_eq_ok h
    obtain ⟨args, hargs, h⟩ := exists_ok_of_bind_eq_ok h
    rw [find_eq_ok_iff] at hfind
    exact ⟨{ i with args }, ⟨cap, args, hfind, hargs, hassociated, rfl⟩,
      (checkCoherence_eq_ok_iff hfind hargs).mp hcoherent, (Except.ok.inj h).symm⟩
  · rintro ⟨j, ⟨cap, args, hfind, hargs, hassociated, rfl⟩, hcoherent, rfl⟩
    have hok := (checkCoherence_eq_ok_iff hfind hargs).mpr hcoherent
    simp [implement, find_eq_ok_iff.mpr hfind, hok, hassociated, hargs, bind, Except.bind, pure,
      Except.pure]

/-- No two stored implementations of a capability overlap. -/
def Coherent (c : Catalog) : Prop :=
  c.implementations.Pairwise fun i j =>
    i.capability = j.capability → overlap j.header i.header = false

/-- One more implementation of a coherent catalog has to be compared with the stored ones only. -/
theorem coherent_concat_iff {c : Catalog} {j : Implementation} :
    Coherent { c with implementations := c.implementations ++ [j] } ↔
      c.Coherent ∧ ∀ k ∈ c.implementationsOf j.capability, overlap j.header k.header = false := by
  simp only [Coherent, List.pairwise_append, List.pairwise_singleton, List.forall_mem_singleton,
    true_and, implementationsOf, List.mem_filter, decide_eq_true_eq, and_imp]

/-- Accepting an implementation keeps a catalog coherent. -/
theorem Coherent.implement {c c' : Catalog} (hc : c.Coherent) {i : Implementation}
    (h : c.implement i = .ok c') : c'.Coherent := by
  obtain ⟨j, -, hoverlap, rfl⟩ := implement_eq_ok_iff.mp h
  exact coherent_concat_iff.mpr ⟨hc, hoverlap⟩

/-- What declaring a capability does. -/
theorem exists_of_declare_eq_ok {c c' : Catalog} {cap : Capability} (h : c.declare cap = .ok c') :
    c.find? cap.name = none ∧ c' = { c with capabilities := c.capabilities ++ [cap] } := by
  unfold declare at h
  split at h
  · cases h
  · rename_i hnew
    obtain ⟨-, -, h⟩ := exists_ok_of_bind_eq_ok h
    exact ⟨Option.not_isSome_iff_eq_none.mp hnew, (Except.ok.inj h).symm⟩

/-- Declaring a capability keeps a catalog coherent. -/
theorem Coherent.declare {c c' : Catalog} (hc : c.Coherent) {cap : Capability}
    (h : c.declare cap = .ok c') : c'.Coherent := by
  obtain ⟨-, rfl⟩ := exists_of_declare_eq_ok h
  exact hc

/-- What relates any two implementations of the same capability relates those of one capability. -/
theorem pairwise_implementationsOf {c : Catalog} {R : Implementation → Implementation → Prop}
    (h : c.implementations.Pairwise fun i j => i.capability = j.capability → R i j)
    (capability : String) : (c.implementationsOf capability).Pairwise R := by
  refine (List.Pairwise.filter _ h).imp_of_mem fun {i j} hi hj hij => hij ?_
  have hi : i.capability = capability := by simpa using (List.mem_filter.mp hi).2
  have hj : j.capability = capability := by simpa using (List.mem_filter.mp hj).2
  rw [hi, hj]

/-! ## What matches -/

/-- Two implementations without overlap do not both match. -/
theorem not_accepts_of_overlap_eq_false {i j : Implementation} {t : Ty} {args : List Ty}
    (hoverlap : overlap j.header i.header = false) (hroom : j.header.LeavesRoom i.header)
    (hi : (Implementation.headerOf t args).LeavesRoom i.header)
    (hj : (Implementation.headerOf t args).LeavesRoom j.header)
    (haccepts : i.accepts t args = true) : j.accepts t args = false := by
  cases haccepts' : j.accepts t args with
  | false => rfl
  | true =>
    -- the target is an instance of both headers
    obtain ⟨σ, hσ⟩ := Implementation.exists_valueAt_of_accepts hi haccepts
    obtain ⟨τ, hτ⟩ := Implementation.exists_valueAt_of_accepts hj haccepts'
    have hcommon : j.header.CommonInstance i.header := ⟨τ, σ, hτ.trans hσ.symm⟩
    rw [overlap_of_commonInstance hroom hcommon] at hoverlap
    cases hoverlap

/-- No two implementations of a capability in a coherent catalog match. -/
theorem Coherent.pairwise_accepts {c : Catalog} (h : c.Coherent) {capability : String} {t : Ty}
    {args : List Ty}
    (hcompared : (c.implementationsOf capability).Pairwise fun i j => j.header.LeavesRoom i.header)
    (hmatched : ∀ i ∈ c.implementationsOf capability,
      (Implementation.headerOf t args).LeavesRoom i.header) :
    (c.implementationsOf capability).Pairwise fun i j =>
      i.accepts t args = true → j.accepts t args = false := by
  have hcoherent := pairwise_implementationsOf h capability
  refine (hcoherent.and hcompared).imp_of_mem fun hi hj hij => ?_
  exact not_accepts_of_overlap_eq_false hij.1 hij.2 (hmatched _ hi) (hmatched _ hj)

end Catalog

/-- A capability with a parameter, implemented for pairs of equal types with two different
arguments. -/
def Catalog.pairs : Catalog where
  capabilities := [⟨"From", [⟨"T", .inv, [], some (.prim "u8")⟩], [], [], []⟩]
  implementations := [⟨"From", .tuple [.var 0, .var 0], [.prim "u8"], [], []⟩,
    ⟨"From", .tuple [.var 0, .var 0], [.prim "i32"], [], []⟩]

namespace Registry

open Catalog (pairs)

/-- What holds of the empty catalog and is kept by declaring capabilities and implementations holds
of the catalog of a registry, whatever the registry was used for. -/
theorem Reachable.catalog_invariant {P : Catalog → Prop} (hnew : P {})
    (hdeclare : ∀ {c c' : Catalog} {cap : Capability}, P c → c.declare cap = .ok c' → P c')
    (himplement : ∀ {c c' : Catalog} {i : Implementation}, P c → c.implement i = .ok c' → P c')
    {r : Registry} {A : Set Question} (h : r.Reachable A) : P r.catalog := by
  induction h with
  | new => exact hnew
  | @declare r A _ cap ih =>
    unfold Registry.declare
    split
    · rename_i hok
      exact hdeclare ih hok
    · exact ih
  | @implement r A _ i ih =>
    unfold Registry.implement
    split
    · rename_i hok
      exact himplement ih hok
    · exact ih
  | checkBounds _ hrun ih => rwa [catalog_of_run hrun]
  | select _ hrun ih => rwa [catalog_of_run hrun]
  | associatedType _ hrun ih => rwa [catalog_of_run hrun]
  | forget _ ih => exact ih

/-- No two stored implementations of a capability overlap, whatever was accepted or refused. -/
theorem Reachable.coherent {r : Registry} {A : Set Question} (h : r.Reachable A) :
    r.catalog.Coherent :=
  h.catalog_invariant List.Pairwise.nil (fun hc hok => hc.declare hok)
    (fun hc hok => hc.implement hok)

/-! ## At most one match -/

/-- At most one stored implementation of a capability matches a type and arguments, as long as the
counter of fresh variables does not wrap around: neither when an implementation was compared with
those before it, nor when it is matched. -/
theorem Reachable.countP_accepts_le_one {r : Registry} {A : Set Question} (h : r.Reachable A)
    {capability : String} {t : Ty} {args : List Ty}
    (hcompared : (r.catalog.implementationsOf capability).Pairwise fun i j =>
      j.header.LeavesRoom i.header)
    (hmatched : ∀ i ∈ r.catalog.implementationsOf capability,
      (Implementation.headerOf t args).LeavesRoom i.header) :
    (r.catalog.implementationsOf capability).countP (fun i => i.accepts t args) ≤ 1 := by
  have hpairs := h.coherent.pairwise_accepts hcompared hmatched
  exact countP_le_one_of_pairwise hpairs

/-- Pairs of equal types with one of two arguments can be declared: the arguments differ. -/
theorem reachable_pairs : Reachable ⟨pairs, []⟩ ∅ := by
  have hreach := ((Reachable.new.declare
    ⟨"From", [⟨"T", .inv, [], some (.prim "u8")⟩], [], [], []⟩).implement
    ⟨"From", .tuple [.var 0, .var 0], [], [], []⟩).implement
    ⟨"From", .tuple [.var 0, .var 0], [.prim "i32"], [], []⟩
  have hpairs : (((({} : Registry).declare
      ⟨"From", [⟨"T", .inv, [], some (.prim "u8")⟩], [], [], []⟩).1.implement
      ⟨"From", .tuple [.var 0, .var 0], [], [], []⟩).1.implement
      ⟨"From", .tuple [.var 0, .var 0], [.prim "i32"], [], []⟩).1 = ⟨pairs, []⟩ := by
    cbv
  rwa [hpairs] at hreach

/-- For a pair of variables and the argument `i32`, one of the two implementations matches and not
the other. -/
theorem Reachable.countP_accepts_le_one_of_pairs :
    let t : Ty := .tuple [.var 7, .var 7]
    let args : List Ty := [.prim "i32"]
    Reachable ⟨pairs, []⟩ ∅ ∧
      ((pairs.implementationsOf "From").Pairwise fun i j => j.header.LeavesRoom i.header) ∧
      (∀ i ∈ pairs.implementationsOf "From",
        (Implementation.headerOf t args).LeavesRoom i.header) ∧
      (∃ i ∈ pairs.implementationsOf "From", i.accepts t args = true) ∧
      (pairs.implementationsOf "From").countP (fun i => i.accepts t args) ≤ 1 := by
  intro t args
  have hcompared : (pairs.implementationsOf "From").Pairwise fun i j =>
      j.header.LeavesRoom i.header := by
    decide +kernel
  have hmatched : ∀ i ∈ pairs.implementationsOf "From",
      (Implementation.headerOf t args).LeavesRoom i.header := by
    decide +kernel
  have haccepts : ∃ i ∈ pairs.implementationsOf "From", i.accepts t args = true := by
    decide +kernel
  exact ⟨reachable_pairs, hcompared, hmatched, haccepts,
    reachable_pairs.countP_accepts_le_one hcompared hmatched⟩

end Registry

end Generics
