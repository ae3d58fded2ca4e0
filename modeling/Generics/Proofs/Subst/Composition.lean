import Generics.Proofs.Subst.Frame
import Mathlib.Data.Nat.Init

/-!
# Composition of substitutions

`Subst.compose` applies one substitution to the types stored in another and then adds its bindings.
Stored types are not resolved, so that in the composite a chain may go through rewritten types first
and then on through types that were taken over as they are. If no variable bound in the first
substitution occurs in the second, chains never come back from the second to the first, and applying
the composite is applying the two one after the other.

## Main results

* `Subst.lookup_compose_of_bound` and `Subst.lookup_compose_of_unbound`: what the composite stores;
* `Subst.Separate.acyclic_compose`: its chains end;
* `Subst.Separate.image_compose`: what a variable stands for in it, along the chain of bindings;
* `Subst.compose_composes`: the composite binds what the two bind and acts like one after the other.
-/

namespace Generics.Subst

variable {s other : Subst}

/-! ## What the composite stores -/

theorem lookup_compose_of_bound (other : Subst) {v : VarId} {t : Ty} (h : s.lookup v = some t) :
    (s.compose other).lookup v = some (other.apply t) := by
  have hmap : (s.bindings.map fun b => (b.1, other.apply b.2)).lookup v = some (other.apply t) := by
    rw [lookup_map_snd, show s.bindings.lookup v = some t from h]
    rfl
  rw [lookup, compose, List.lookup_append, hmap]
  rfl

theorem lookup_compose_of_unbound (other : Subst) {v : VarId} (h : s.isBound v = false) :
    (s.compose other).lookup v = other.lookup v := by
  have hmap : (s.bindings.map fun b => (b.1, other.apply b.2)).lookup v = none := by
    rw [lookup_map_snd, show s.bindings.lookup v = none from not_isBound_iff.mp h]
    rfl
  rw [lookup, compose, List.lookup_append, hmap]
  exact lookup_filter_of_pos (p := fun w => !s.isBound w) (by simp [h]) other.bindings

/-- The composite binds the variables of both. -/
theorem isBound_compose (s other : Subst) (v : VarId) :
    (s.compose other).isBound v = (s.isBound v || other.isBound v) := by
  cases hv : s.isBound v with
  | false => rw [isBound, lookup_compose_of_unbound other hv, Bool.false_or, isBound]
  | true =>
    obtain ⟨t, ht⟩ := isBound_iff.mp hv
    rw [isBound, lookup_compose_of_bound other ht, Bool.true_or, Option.isSome_some]

/-! ## Chains of the composite -/

/-- What a variable resolves to has no variables but itself and those of stored types. -/
theorem mem_vars_resolve (s : Subst) (depth : Nat) {v w : VarId}
    (hw : w ∈ (s.resolve depth v).vars) : w = v ∨ ∃ x t, s.lookup x = some t ∧ w ∈ t.vars := by
  induction depth generalizing v with
  | zero => exact .inl (by simpa [resolve, Ty.vars] using hw)
  | succ depth ih =>
    rw [resolve] at hw
    cases hv : s.lookup v with
    | none => exact .inl (by simpa [hv, Ty.vars] using hw)
    | some t =>
      simp only [hv, Ty.mem_vars_subst] at hw
      obtain ⟨x, hx, hwx⟩ := hw
      rcases ih hwx with rfl | hstored
      · exact .inr ⟨v, t, hv, hx⟩
      · exact .inr hstored

/-- No variable bound in `s` occurs in `other`, neither as a bound variable nor in a stored type. -/
def Separate (s other : Subst) : Prop :=
  ∀ v, s.isBound v = true → other.isBound v = false ∧ ∀ w t, other.lookup w = some t → v ∉ t.vars

/-- Whether substitutions are separate can be read off their bindings. -/
theorem separate_of_bindings (h : ∀ b ∈ s.bindings, other.isBound b.1 = false ∧
    ∀ c ∈ other.bindings, b.1 ∉ c.2.vars) : s.Separate other := by
  intro v hv
  obtain ⟨b, hb, rfl⟩ := exists_mem_of_isBound hv
  refine ⟨(h b hb).1, fun w t hw => ?_⟩
  exact (h b hb).2 (w, t) (mem_of_lookup hw)

/-- The bound variables that a type has after `other` is applied, it had before. -/
theorem Separate.mem_vars_of_apply (h : s.Separate other) {t : Ty} {v : VarId}
    (hv : s.isBound v = true) (hmem : v ∈ (other.apply t).vars) : v ∈ t.vars := by
  unfold apply at hmem
  split at hmem
  · exact hmem
  · obtain ⟨x, hx, hvx⟩ := Ty.mem_vars_subst.mp hmem
    rcases mem_vars_resolve other _ hvx with rfl | ⟨w, u, hw, hvu⟩
    · exact hx
    · exact absurd hvu ((h v hv).2 w u hw)

/-- The rank of a variable in the composite: its rank in the substitution that its binding is from. -/
def composeRank (s : Subst) (rank rank' : VarId → Nat) (v : VarId) : Nat :=
  if s.isBound v then rank v else rank' v

/-- In the composite chains go down within the first substitution, or within the second. -/
theorem Separate.ranks_compose (h : s.Separate other) (ho : other.Acyclic) {rank rank' : VarId → Nat}
    (hs : s.Ranks rank) (hr : other.Ranks rank') :
    (s.compose other).Ranks (s.composeRank rank rank') := by
  intro v u hv w hw hbound
  rw [isBound_compose] at hbound
  cases hvb : s.isBound v with
  | true =>
    obtain ⟨t, ht⟩ := isBound_iff.mp hvb
    obtain rfl : other.apply t = u :=
      Option.some.inj ((lookup_compose_of_bound other ht).symm.trans hv)
    -- `other` leaves none of its own variables, so that `w` is bound in `s`
    have hwb : s.isBound w = true := by
      simpa [ho.resolved_apply t w hw] using hbound
    have hlt := hs v t ht w (h.mem_vars_of_apply hwb hw) hwb
    simpa [composeRank, hvb, hwb] using hlt
  | false =>
    rw [lookup_compose_of_unbound other hvb] at hv
    have hwb : s.isBound w = false :=
      Bool.eq_false_iff.mpr fun hwb => (h w hwb).2 v u hv hw
    have hlt := hr v u hv w hw (by simpa [hwb] using hbound)
    simpa [composeRank, hvb, hwb] using hlt

theorem Separate.acyclic_compose (h : s.Separate other) (hs : s.Acyclic) (ho : other.Acyclic) :
    (s.compose other).Acyclic := by
  obtain ⟨rank, hrank⟩ := hs
  obtain ⟨rank', hrank'⟩ := ho
  exact ⟨_, h.ranks_compose ⟨rank', hrank'⟩ hrank hrank'⟩

/-! ## What a variable stands for in the composite -/

theorem image_of_unbound {v : VarId} (hv : s.isBound v = false) : s.image v = .var v := by
  rw [image, not_isBound_iff.mp hv]

theorem image_of_lookup {v : VarId} {t : Ty} (hv : s.lookup v = some t) : s.image v = s.apply t := by
  rw [image, hv]

/-- What a variable stands for under `other` means the same to the composite, unless it is bound in the
first substitution. -/
theorem Separate.subst_image_image (h : s.Separate other) (ho : other.Acyclic)
    (hne : other.bindings.isEmpty = false) {v : VarId} (hv : s.isBound v = false) :
    (other.image v).subst (s.compose other).image = other.image v := by
  rw [← ho.resolve_size_eq_image hne]
  -- no variable is left that the composite binds
  have hleft : ∀ x ∈ (other.resolve other.size v).vars, (s.compose other).image x = .var x := by
    intro x hx
    refine image_of_unbound ?_
    have hsx : s.isBound x = false := by
      rcases mem_vars_resolve other _ hx with rfl | ⟨w, t, hw, hxt⟩
      · exact hv
      · exact Bool.eq_false_iff.mpr fun hxb => (h x hxb).2 w t hw hxt
    rw [isBound_compose, hsx, ho.resolved_resolve v x hx]
    rfl
  rw [Ty.subst_congr hleft, resolve_subst_var]

/-- In the composite a variable stands for what `other` makes of what it stands for in `s`. -/
theorem Separate.image_compose (h : s.Separate other) (hs : s.Acyclic) (ho : other.Acyclic)
    (hsne : s.bindings.isEmpty = false) (hone : other.bindings.isEmpty = false)
    (hne : (s.compose other).bindings.isEmpty = false) (v : VarId) :
    (s.compose other).image v = (s.image v).subst other.image := by
  have hc := h.acyclic_compose hs ho
  obtain ⟨rank, hrank⟩ := id hs
  obtain ⟨rank', hrank'⟩ := id ho
  -- along the chain of bindings: the variables of the stored type have smaller ranks
  induction hn : s.composeRank rank rank' v using Nat.strong_induction_on generalizing v with
  | _ n ih =>
    subst hn
    cases hv : s.isBound v with
    | true =>
      obtain ⟨t, ht⟩ := isBound_iff.mp hv
      rw [image_of_lookup (lookup_compose_of_bound other ht), image_of_lookup ht,
        hc.apply_eq_subst_image hne, ho.apply_eq_subst_image hone, hs.apply_eq_subst_image hsne,
        Ty.subst_subst, Ty.subst_subst]
      refine Ty.subst_congr fun w hw => ?_
      cases hwb : s.isBound w with
      | true =>
        rw [image_of_unbound (h w hwb).1]
        refine ih _ ?_ w rfl
        simpa [composeRank, hv, hwb] using hrank v t ht w hw hwb
      | false => rw [h.subst_image_image ho hone hwb, image_of_unbound hwb, Ty.subst]
    | false =>
      rw [image_of_unbound hv, Ty.subst]
      cases ht : other.lookup v with
      | none =>
        rw [image, lookup_compose_of_unbound other hv, ht, image, ht]
      | some t =>
        rw [image_of_lookup ((lookup_compose_of_unbound other hv).trans ht), image_of_lookup ht,
          hc.apply_eq_subst_image hne, ho.apply_eq_subst_image hone]
        refine Ty.subst_congr fun w hw => ?_
        have hwb : s.isBound w = false :=
          Bool.eq_false_iff.mpr fun hwb => (h w hwb).2 v t ht hw
        cases hwo : other.isBound w with
        | true =>
          have hw' := ih _ (by simpa [composeRank, hv, hwb] using hrank' v t ht w hw hwo) w rfl
          rw [hw', image_of_unbound hwb, Ty.subst]
        | false =>
          rw [image_of_unbound hwo, image_of_unbound]
          rw [isBound_compose, hwb, hwo]
          rfl

/-! ## The composite as a whole -/

theorem compose_of_isEmpty_left (h : s.bindings.isEmpty = true) : s.compose other = other := by
  have hall : (other.bindings.filter fun b => !s.isBound b.1) = other.bindings :=
    List.filter_eq_self.mpr fun b _ => by simp [isBound_of_isEmpty h]
  rw [compose, hall, List.isEmpty_iff.mp h]
  rfl

theorem compose_of_isEmpty_right (h : other.bindings.isEmpty = true) : s.compose other = s := by
  simp [compose, apply_of_isEmpty h, List.isEmpty_iff.mp h]

/-- Let no variable bound in `s` occur in `other`. Then the composite of the two is acyclic as they
are, binds the variables that one of them binds, and applying it is applying `s` and then `other`. -/
theorem compose_composes (hs : s.Acyclic) (ho : other.Acyclic) (h : s.Separate other) :
    (s.compose other).Acyclic ∧
      (∀ v, (s.compose other).isBound v = true ↔ s.isBound v = true ∨ other.isBound v = true) ∧
      ∀ t, (s.compose other).apply t = other.apply (s.apply t) := by
  have hc := h.acyclic_compose hs ho
  refine ⟨hc, fun v => by rw [isBound_compose, Bool.or_eq_true], fun t => ?_⟩
  cases hsne : s.bindings.isEmpty with
  | true => rw [compose_of_isEmpty_left hsne, apply_of_isEmpty hsne]
  | false =>
    cases hone : other.bindings.isEmpty with
    | true => rw [compose_of_isEmpty_right hone, apply_of_isEmpty hone]
    | false =>
      have hcne : (s.compose other).bindings.isEmpty = false := by
        simp only [compose, List.isEmpty_eq_false_iff, ne_eq, List.append_eq_nil_iff,
          List.map_eq_nil_iff, not_and]
        exact fun hnil => absurd hnil (List.isEmpty_eq_false_iff.mp hsne)
      rw [hc.apply_eq_subst_image hcne, ho.apply_eq_subst_image hone, hs.apply_eq_subst_image hsne,
        Ty.subst_subst]
      exact Ty.subst_congr fun v _ => h.image_compose hs ho hsne hone hcne v

/-- A chain that goes through two stored types of the first substitution and two of the second. -/
theorem compose_composes_of_chain :
    let s : Subst := ⟨[(1, .named "Vec" [] [.var 3]), (0, .tuple [.var 1, .fn [.var 2] none])]⟩
    let other : Subst := ⟨[(4, .prim "u8"), (3, .ptr true (.var 4))]⟩
    s.Acyclic ∧ other.Acyclic ∧ s.Separate other ∧
      (s.compose other).apply (.var 0) =
        .tuple [.named "Vec" [] [.ptr true (.prim "u8")], .fn [.var 2] (some .unit)] ∧
      (s.compose other).apply (.var 0) = other.apply (s.apply (.var 0)) := by
  intro s other
  -- the ends of the chains are bound last
  have hs : s.Acyclic := by
    have hfirst : (empty.insert 0 (.tuple [.var 1, .fn [.var 2] none])).Acyclic :=
      acyclic_empty.insert rfl (fun _ _ => rfl) (by simp [Ty.vars])
    refine hfirst.insert (v := 1) (t := .named "Vec" [] [.var 3]) rfl (fun v hv => ?_)
      (by simp [Ty.vars])
    obtain rfl : v = 3 := by simpa [Ty.vars] using hv
    rfl
  have ho : other.Acyclic := by
    have hfirst : (empty.insert 3 (.ptr true (.var 4))).Acyclic :=
      acyclic_empty.insert rfl (fun _ _ => rfl) (by simp [Ty.vars])
    exact hfirst.insert (v := 4) (t := .prim "u8") rfl (by simp [Resolved, Ty.vars])
      (by simp [Ty.vars])
  have hseparate : s.Separate other := by
    refine separate_of_bindings ?_
    simp [s, other, Ty.vars, isBound, lookup]
  refine ⟨hs, ho, hseparate, rfl, ?_⟩
  exact (compose_composes hs ho hseparate).2.2 (.var 0)

end Generics.Subst
