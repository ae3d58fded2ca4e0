import Generics.Proofs.Const.Binding
import Generics.Proofs.Const.Mangling

/-!
# The order of const arguments

The arguments of an instance are checked one after the other. The first that has no value, repeats a
name or does not fit ends the check, so the error depends on the order. Whether there is an error
does not: arguments pass exactly if each has a value that fits and no name is given twice. The
values are then put in the order of the parameters, and the order in which they were given is lost.

## Main results

* `Const.Context.exists_collect_iff`: which arguments pass;
* `Const.Context.Acceptable.of_perm`: that does not depend on their order;
* `Const.Context.instances_of_perm`: neither does the identifier of an instance, and no call for one
  changes the context.
-/

namespace Generics.Const.Context

variable {c : Context} {args args' : List Argument}

/-- Arguments that pass: each has a value that fits, and no name is given twice. -/
structure Acceptable (c : Context) (args : List Argument) : Prop where
  distinct : (args.map Argument.name).Nodup
  fits : ∀ a ∈ args, ∃ v, a.value = some v ∧ c.check a.name v = .ok ()

theorem Acceptable.of_perm (h : c.Acceptable args) (hperm : args.Perm args') :
    c.Acceptable args' where
  distinct := (hperm.map Argument.name).nodup_iff.mp h.distinct
  fits a ha := h.fits a (hperm.mem_iff.mpr ha)

theorem acceptable_cons_iff {name : String} {value : ConstValue} :
    c.Acceptable (⟨name, some value⟩ :: args) ↔
      c.check name value = .ok () ∧ c.Acceptable args ∧ ∀ a ∈ args, a.name ≠ name := by
  constructor
  · rintro ⟨hdistinct, hfits⟩
    obtain ⟨hname, hdistinct⟩ := List.nodup_cons.mp hdistinct
    obtain ⟨⟨v, hv, hcheck⟩, hfits⟩ := List.forall_mem_cons.mp hfits
    obtain rfl := Option.some.inj hv
    exact ⟨hcheck, ⟨hdistinct, hfits⟩, fun a ha heq => hname (List.mem_map.mpr ⟨a, ha, heq⟩)⟩
  · rintro ⟨hcheck, ⟨hdistinct, hfits⟩, hname⟩
    refine ⟨List.nodup_cons.mpr ⟨fun hmem => ?_, hdistinct⟩,
      List.forall_mem_cons.mpr ⟨⟨value, rfl, hcheck⟩, hfits⟩⟩
    obtain ⟨a, ha, heq⟩ := List.mem_map.mp hmem
    exact hname a ha heq

theorem lookup_cons_eq_none_iff {given : List (String × ConstValue)} {name other : String}
    {value : ConstValue} :
    ((name, value) :: given).lookup other = none ↔ other ≠ name ∧ given.lookup other = none := by
  rw [List.lookup_cons]
  by_cases h : other = name
  · simp [h]
  · simp [h, beq_eq_false_iff_ne.mpr h]

/-- Arguments are collected exactly if they pass and none has a name that was collected before. -/
theorem exists_collect_iff {given : List (String × ConstValue)} :
    (∃ out, c.collect given args = .ok out) ↔
      c.Acceptable args ∧ ∀ a ∈ args, given.lookup a.name = none := by
  fun_induction collect c given args with
  | case1 given => exact iff_of_true ⟨given, rfl⟩ ⟨⟨List.nodup_nil, by simp⟩, by simp⟩
  | case2 given name args =>
    refine iff_of_false (by rintro ⟨out, ⟨⟩⟩) ?_
    rintro ⟨h, -⟩
    obtain ⟨v, hv, -⟩ := h.fits _ List.mem_cons_self
    cases hv
  | case3 given name value args hgiven =>
    refine iff_of_false (by rintro ⟨out, ⟨⟩⟩) ?_
    rintro ⟨-, h⟩
    rw [h _ List.mem_cons_self] at hgiven
    cases hgiven
  | case4 given name value args hgiven ih =>
    have hnone : given.lookup name = none := Option.not_isSome_iff_eq_none.mp hgiven
    rw [acceptable_cons_iff, List.forall_mem_cons]
    constructor
    · rintro ⟨out, hout⟩
      obtain ⟨⟨⟩, hcheck, hrest⟩ := exists_ok_of_bind_eq_ok hout
      obtain ⟨haccept, hnew⟩ := ih.mp ⟨out, hrest⟩
      -- a name that is not among those collected so far differs from the first one
      exact ⟨⟨hcheck, haccept, fun a ha => (lookup_cons_eq_none_iff.mp (hnew a ha)).1⟩, hnone,
        fun a ha => (lookup_cons_eq_none_iff.mp (hnew a ha)).2⟩
    · rintro ⟨⟨hcheck, haccept, hname⟩, -, hnew⟩
      obtain ⟨out, hout⟩ := ih.mpr ⟨haccept, fun a ha =>
        lookup_cons_eq_none_iff.mpr ⟨hname a ha, hnew a ha⟩⟩
      exact ⟨out, by rw [hcheck]; exact hout⟩

theorem exists_collect_nil_iff : (∃ given, c.collect [] args = .ok given) ↔ c.Acceptable args := by
  rw [exists_collect_iff]
  exact and_iff_left fun _ _ => rfl

/-- Arguments in another order give each name the same value. -/
theorem lookup_of_perm {given given' : List (String × ConstValue)} (hperm : args.Perm args')
    (h : c.collect [] args = .ok given) (h' : c.collect [] args' = .ok given') :
    (given.lookup ·) = (given'.lookup ·) := by
  have hdistinct := (exists_collect_nil_iff.mp ⟨given, h⟩).distinct
  funext name
  rw [lookup_of_collect h, lookup_of_collect h', find?_of_perm hdistinct hperm]

/-- If arguments pass, so they do in another order, and the outcome is the same. -/
theorem eq_of_perm (hperm : args.Perm args') (h : c.Acceptable args) :
    c.monomorphize args = c.monomorphize args' ∧ c.specialize args = c.specialize args' := by
  obtain ⟨given, hgiven⟩ := exists_collect_nil_iff.mpr h
  obtain ⟨given', hgiven'⟩ := exists_collect_nil_iff.mpr (h.of_perm hperm)
  have hlookup : ∀ name, given.lookup name = given'.lookup name :=
    congrFun (lookup_of_perm hperm hgiven hgiven')
  have heffective : c.effective given = c.effective given' := by
    funext p
    rw [effective, effective, hlookup]
  unfold monomorphize specialize
  rw [hgiven, hgiven']
  refine ⟨?_, ?_⟩
  · show ((c.params.mapM _ : Except Error (List String)) >>= _) =
      ((c.params.mapM _ : Except Error (List String)) >>= _)
    rw [heffective]
  · show Except.ok _ = Except.ok _
    simp only [hlookup]

/-! ## Instances -/

/-- There is an instance exactly if the arguments pass and each parameter has a value. -/
theorem exists_monomorphize_iff : (∃ id, c.monomorphize args = .ok id) ↔
    c.Acceptable args ∧ ∀ p ∈ c.params, (c.valueIn args p).isSome = true := by
  constructor
  · rintro ⟨id, h⟩
    obtain ⟨values, hvalues, -⟩ := monomorphize_eq_ok h
    obtain ⟨given, hgiven, -⟩ := exists_ok_of_bind_eq_ok h
    refine ⟨exists_collect_nil_iff.mp ⟨given, hgiven⟩, fun p hp => ?_⟩
    have hmem : c.valueIn args p ∈ values.map some := hvalues ▸ List.mem_map_of_mem hp
    obtain ⟨v, -, hv⟩ := List.mem_map.mp hmem
    rw [← hv]
    rfl
  · rintro ⟨haccept, hvalues⟩
    obtain ⟨given, hgiven⟩ := exists_collect_nil_iff.mpr haccept
    rw [← effective_of_collect hgiven] at hvalues
    -- all parameters can be written, so that the whole identifier can
    refine exists_bind_eq_ok ⟨given, hgiven⟩ fun given' hgiven' =>
      exists_bind_eq_ok (exists_mapM_eq_ok fun p hp => ?_) fun texts _ => ⟨_, rfl⟩
    obtain rfl : given = given' := Except.ok.inj (hgiven.symm.trans hgiven')
    obtain ⟨v, hv⟩ := Option.isSome_iff_exists.mp (hvalues p hp)
    exact ⟨mangled p.name v, by rw [hv]⟩

/-- There is a partial instance exactly if the arguments pass. -/
theorem exists_specialize_iff : (∃ id, c.specialize args = .ok id) ↔ c.Acceptable args := by
  rw [← exists_collect_nil_iff]
  constructor
  · rintro ⟨id, h⟩
    obtain ⟨given, hgiven, -⟩ := exists_ok_of_bind_eq_ok h
    exact ⟨given, hgiven⟩
  · rintro ⟨given, hgiven⟩
    exact ⟨_, by rw [specialize, hgiven]; rfl⟩

/-- The order of the arguments decides neither whether there is an instance nor its identifier, be
it of all parameters or of some. There is one exactly if the arguments pass and, for all parameters,
each of these has a value. Asking for it changes the context at no point of a run. -/
theorem instances_of_perm (c : Context) (hperm : args.Perm args') :
    (∀ id, c.monomorphize args = .ok id ↔ c.monomorphize args' = .ok id) ∧
      (∀ id, c.specialize args = .ok id ↔ c.specialize args' = .ok id) ∧
      ((∃ id, c.monomorphize args = .ok id) ↔
        c.Acceptable args ∧ ∀ p ∈ c.params, (c.valueIn args p).isSome = true) ∧
      ((∃ id, c.specialize args = .ok id) ↔ c.Acceptable args) ∧
      ∀ request ∈ [Request.monomorphize args, Request.specialize args], ∀ before rest,
        c.run (before ++ request :: rest) = c.run (before ++ rest) := by
  -- a list of arguments that has an instance passes, and then every order has the same outcome
  refine ⟨fun id => ?_, fun id => ?_, exists_monomorphize_iff, exists_specialize_iff, ?_⟩
  · constructor
    · intro h
      rwa [← (eq_of_perm hperm (exists_monomorphize_iff.mp ⟨id, h⟩).1).1]
    · intro h
      rwa [← (eq_of_perm hperm.symm (exists_monomorphize_iff.mp ⟨id, h⟩).1).1]
  · constructor
    · intro h
      rwa [← (eq_of_perm hperm (exists_specialize_iff.mp ⟨id, h⟩)).2]
    · intro h
      rwa [← (eq_of_perm hperm.symm (exists_specialize_iff.mp ⟨id, h⟩)).2]
  · intro request hrequest before rest
    refine run_append_cons ?_ c before rest
    rcases List.mem_pair.mp hrequest with rfl | rfl <;> rfl

/-- Two arguments in either order name the same instance, and a run goes on as if it had not been
asked for. -/
theorem instances_of_swap :
    let c : Context := ⟨"Matrix", [⟨"R", .prim "usize", none⟩, ⟨"C", .prim "usize", none⟩], []⟩
    let args : List Argument := [⟨"C", some (.integer 2)⟩, ⟨"R", some (.integer 1)⟩]
    c.monomorphize args = .ok "Matrix__R_1__C_2" ∧
      c.monomorphize args.reverse = .ok "Matrix__R_1__C_2" ∧
      c.run [.monomorphize args, .bind "R" (.bool true) (ConstValue.fits_bool true)] =
        c.run [.bind "R" (.bool true) (ConstValue.fits_bool true)] := by
  intro c args
  obtain ⟨hmonomorphize, -, -, -, hrun⟩ := instances_of_perm c (List.reverse_perm args).symm
  have h : c.monomorphize args = .ok "Matrix__R_1__C_2" := by
    unfold c args
    decide +kernel
  exact ⟨h, (hmonomorphize _).mp h, hrun _ List.mem_cons_self [] _⟩

end Generics.Const.Context
