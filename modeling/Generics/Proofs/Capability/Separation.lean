import Generics.Proofs.Capability.Coherence
import Mathlib.Data.List.Sort

/-!
# Headers with variables of their own

Before two headers are compared, one is renamed apart from the other: its variables get the numbers
after the greatest variable of the other one. The counter has 64 bits. If it wraps around, either
because a variable has the last number or because too few numbers are left, the new names may be
variables of the other header after all.

## Main results

* `Fresher.next_after_eq` and `Fresher.after_of_last`: where the supply starts, and that a variable with
  the last number makes it forget all types up to there;
* `Fresher.renameAlone_apart_iff`: when a renamed type shares no variable with those that it was
  renamed apart from;
* `Catalog.overlap_misses_shared_variable`: two headers with a common instance that pass for separate.
-/

namespace Generics

/-- The type has no variable in common with any of the others. -/
def Ty.Apart (t : Ty) (ts : List Ty) : Prop := ∀ v ∈ varsList ts, v ∉ t.vars

namespace Fresher

/-! ## Where the supply starts -/

/-- The counter starts at 0 or after one of the variables. -/
theorem next_foldl_skip (vs : List VarId) (f : Fresher) :
    (vs.foldl skip f).next = f.next ∨ ∃ v ∈ vs, (vs.foldl skip f).next = v + 1 := by
  induction vs generalizing f with
  | nil => exact .inl rfl
  | cons v vs ih =>
    rw [List.foldl_cons]
    rcases ih (f.skip v) with hnext | ⟨w, hw, hnext⟩
    · -- none of the later variables moves the counter, so it is where `v` has put it
      rw [hnext, skip]
      split
      · exact .inr ⟨v, List.mem_cons_self, rfl⟩
      · exact .inl rfl
    · exact .inr ⟨w, List.mem_cons_of_mem v hw, hnext⟩

theorem next_after_eq (ts : List Ty) :
    (after ts).next = 0 ∨ ∃ v ∈ Ty.varsList ts, (after ts).next = v + 1 := by
  refine (next_foldl_skip (ts.flatMap Ty.freeVars) new).imp_right ?_
  rintro ⟨v, hv, hnext⟩
  exact ⟨v, mem_flatMap_freeVars.mp hv, hnext⟩

/-- After the last number the supply starts again. -/
theorem skip_last {v : VarId} (hv : v.toNat + 1 = UInt64.size) (f : Fresher) : f.skip v = new := by
  have hle : f.next ≤ v := by
    rw [UInt64.le_iff_toNat_le]
    have := f.next.toNat_lt_size
    omega
  have hzero : v + 1 = 0 := by
    rw [← UInt64.toNat_inj, UInt64.toNat_add]
    simp only [UInt64.size] at hv
    simp [hv]
  rw [skip, if_pos hle, hzero]
  rfl

/-- The variable with the last number is the last one of its type. -/
theorem exists_freeVars_eq_concat {t : Ty} {v : VarId} (hv : v.toNat + 1 = UInt64.size)
    (hmem : v ∈ t.vars) : ∃ vs, t.freeVars = vs ++ [v] := by
  obtain ⟨before, after, heq⟩ := List.append_of_mem (Ty.mem_freeVars.mpr hmem)
  have hsorted : t.freeVars.Pairwise (· ≤ ·) := by
    rw [Ty.freeVars]
    exact List.pairwise_mergeSort' _ _
  have hnodup := t.nodup_freeVars
  rw [heq] at hsorted hnodup
  -- whatever comes after it is no smaller, hence the same number again
  have hafter : after = [] := by
    refine List.eq_nil_iff_forall_not_mem.mpr fun w hw => ?_
    have hle := (List.pairwise_cons.mp (List.pairwise_append.mp hsorted).2.1).1 w hw
    have hwv : w = v := by
      rw [UInt64.le_iff_toNat_le] at hle
      have := w.toNat_lt_size
      exact UInt64.toNat_inj.mp (by omega)
    exact (List.nodup_cons.mp (List.nodup_append.mp hnodup).2.1).1 (hwv ▸ hw)
  exact ⟨before, by rw [heq, hafter]⟩

/-- A variable with the last number makes the supply start as if only the later types were there. -/
theorem after_of_last {t : Ty} {v : VarId} (hv : v.toNat + 1 = UInt64.size) (hmem : v ∈ t.vars)
    (before rest : List Ty) : after (before ++ t :: rest) = after rest := by
  obtain ⟨vs, hvs⟩ := exists_freeVars_eq_concat hv hmem
  simp only [after, List.flatMap_append, List.flatMap_cons, List.foldl_append, hvs, List.foldl_cons,
    List.foldl_nil, skip_last hv]

/-! ## When a renamed type is apart -/

/-- The distance from where the supply starts to a variable, counted around. -/
theorem toNat_sub_next_after {ts : List Ty} (h : ∀ v ∈ Ty.varsList ts, v.toNat + 1 < UInt64.size)
    {v : VarId} (hv : v ∈ Ty.varsList ts) :
    (v - (after ts).next).toNat + (after ts).next.toNat = UInt64.size + v.toNat := by
  have hlt := lt_next_after h v hv
  have hsize := (after ts).next.toNat_lt_size
  rw [UInt64.toNat_sub]
  simp only [UInt64.size] at hsize ⊢
  omega

/-- A type that is renamed apart from others shares no variable with them exactly when the counter, as
it gives a number to each of its variables, does not come around to one of theirs. While none of
theirs has the last number, this is so exactly when the numbers after the greatest of them and before
the least suffice. A variable with the last number makes the supply start as if the types up to there
were not present. -/
theorem renameAlone_apart_iff (ts : List Ty) (t : Ty) :
    (((after ts).renameAlone t).1.Apart ts ↔
      ∀ v ∈ Ty.varsList ts, t.freeVars.length ≤ (v - (after ts).next).toNat) ∧
    ((∀ v ∈ Ty.varsList ts, v.toNat + 1 < UInt64.size) →
      (((after ts).renameAlone t).1.Apart ts ↔ ∀ v ∈ Ty.varsList ts, ∀ w ∈ Ty.varsList ts,
        v.toNat + t.freeVars.length < UInt64.size + w.toNat)) ∧
    ∀ before u rest, ts = before ++ u :: rest → (∃ v ∈ u.vars, v.toNat + 1 = UInt64.size) →
      after ts = after rest := by
  have happart : ((after ts).renameAlone t).1.Apart ts ↔
      ∀ v ∈ Ty.varsList ts, t.freeVars.length ≤ (v - (after ts).next).toNat := by
    refine forall₂_congr fun v _ => ?_
    rw [(mem_vars_renameAlone UInt64.ofNat_toNat.symm t).2, among_toNat_iff, Nat.not_lt]
  refine ⟨happart, fun hlast => ?_, ?_⟩
  · rw [happart]
    constructor
    · intro h v hv w hw
      have hfar := h w hw
      have hdist := toNat_sub_next_after hlast hw
      have hlt := lt_next_after hlast v hv
      omega
    · intro h w hw
      have hdist := toNat_sub_next_after hlast hw
      have hlt := lt_next_after hlast w hw
      -- as there is a variable, the supply starts after one of them
      obtain hzero | ⟨v, hv, hnext⟩ := next_after_eq ts
      · rw [hzero] at hlt
        exact absurd hlt (Nat.not_lt_zero _)
      · have hroom := h v hv w hw
        have hsucc : (v + 1).toNat = v.toNat + 1 := by
          have := hlast v hv
          rw [UInt64.toNat_add, UInt64.toNat_one]
          exact Nat.mod_eq_of_lt (by simpa only [UInt64.size] using this)
        rw [hnext, hsucc] at hdist
        rw [hnext]
        omega
  · rintro before u rest rfl ⟨v, hv, hlast⟩
    exact after_of_last hlast hv before rest

end Fresher

/-! ## Headers that share a variable -/

/-- The first header has a variable with the last number, so that the variable of the second one gets
the number 0, which the first has as well. The two have an instance in common, but the shared variable
keeps them from being unified. -/
theorem Catalog.overlap_misses_shared_variable :
    let a : Ty := .named "P" [] [.var 0, .var 18446744073709551615]
    let b : Ty := .named "P" [] [.named "Vec" [] [.var 5], .prim "u8"]
    let renamed := ((Fresher.after [a]).renameAlone b).1
    renamed = .named "P" [] [.named "Vec" [] [.var 0], .prim "u8"] ∧ ¬ renamed.Apart [a] ∧
      a.CommonInstance b ∧ overlap a b = false := by
  intro a b renamed
  have hafter : Fresher.after [a] = .new :=
    Fresher.after_of_last (v := 18446744073709551615) (by decide) (by simp [a, Ty.vars]) [] []
  have hrenamed : renamed = .named "P" [] [.named "Vec" [] [.var 0], .prim "u8"] := by
    unfold renamed
    rw [hafter]
    rfl
  refine ⟨hrenamed, fun h => ?_, ?_, ?_⟩
  · exact h 0 (by simp [a, Ty.vars]) (by simp [hrenamed, Ty.vars])
  · refine ⟨fun v => if v = 0 then .named "Vec" [] [.prim "u8"] else .prim "u8",
      fun _ => .prim "u8", ?_⟩
    simp [a, b, Ty.valueAt, Ty.subst, Ty.erase]
  · rw [overlap_eq]
    show (Subst.empty.unify a renamed).2.isOk = false
    generalize hrun : Subst.empty.unify a renamed = run
    obtain ⟨s, outcome⟩ := run
    cases outcome with
    | error e => rfl
    | ok =>
      have hs := (Subst.grows_of_unify hrun).acyclic Subst.acyclic_empty
      have hvalue := ((Subst.acyclic_empty.solves_unify_iff hrun _).mp hs.solves_image).2
      rw [hrenamed, Ty.valueAt_named, Ty.valueAt_named] at hvalue
      -- the shared variable would stand for a type that contains it
      have hinside : (Ty.var 0).valueAt s.image = (Ty.named "Vec" [] [.var 0]).valueAt s.image :=
        (List.cons.inj (Ty.named.inj hvalue).2.2).1
      exact absurd hinside (Ty.valueAt_var_ne_of_mem_vars _ (by simp [Ty.vars]) (by simp))

end Generics
