import Generics.Proofs.Evaluation
import Generics.Subst.Unify

/-!
# Substitutions made by binding and unifying

Binding and unifying only ever add bindings, one at a time: an unbound variable gets a type that is
resolved and does not mention it. `Grows` is the relation that such steps generate, and what a
single step keeps is kept by every call, whether it succeeds or fails halfway. In particular every
substitution that is `Reachable` from the empty one is acyclic.

In an acyclic substitution, to apply the substitution to a type is to apply it to the types stored
for its variables. This recursion is well-founded, and `apply_eq` says that `Subst.apply` is its
solution.

## Main results

* `grows_unify` and `grows_bind`: unifying and binding only add bindings;
* `Acyclic.wellFounded_leadsTo` and `Acyclic.apply_eq`: following bindings ends;
* `Acyclic.apply_apply`: applying a substitution twice is applying it once;
* `Reachable.acyclic`: no sequence of calls makes a cycle.
-/

namespace Generics.Subst

/-! ## Adding bindings -/

/-- The second substitution comes from the first by binding unbound variables, one after the other,
to resolved types that do not mention them. -/
inductive Grows : Subst → Subst → Prop
  | refl (s : Subst) : Grows s s
  | insert {s s' : Subst} {v : VarId} {t : Ty} (hv : s.isBound v = false) (ht : s.Resolved t)
      (hocc : v ∉ t.vars) (hgrows : Grows (s.insert v t) s') : Grows s s'

theorem Grows.trans {s s' s'' : Subst} (h : s.Grows s') (h' : s'.Grows s'') : s.Grows s'' := by
  induction h with
  | refl s => exact h'
  | insert hv ht hocc _ ih => exact .insert hv ht hocc (ih h')

/-- Adding bindings makes no cycle. -/
theorem Grows.acyclic {s s' : Subst} (h : s.Grows s') (hs : s.Acyclic) : s'.Acyclic := by
  induction h with
  | refl s => exact hs
  | insert hv ht hocc _ ih => exact ih (hs.insert hv ht hocc)

/-- Adding bindings keeps what is stored. -/
theorem Grows.lookup {s s' : Subst} (h : s.Grows s') {v : VarId} {t : Ty}
    (hv : s.lookup v = some t) : s'.lookup v = some t := by
  induction h with
  | refl s => exact hv
  | @insert s s' w u hw _ _ _ ih =>
    have hne : v ≠ w := by
      rintro rfl
      rw [not_isBound_iff.mp hw] at hv
      cases hv
    exact ih ((lookup_insert_of_ne s u hne).trans hv)

/-- Working through pairs only adds bindings. -/
theorem grows_unifyAll (goal : Ty × Ty) (s : Subst) (hs : s.Acyclic) (work : List (Ty × Ty)) :
    s.Grows (s.unifyAll goal hs work).1 := by
  fun_induction unifyAll goal s hs work with
  | case1 s hs => exact .refl s
  | case2 s hs p rest pairs h ih => exact ih
  | case3 s hs p rest context h => exact .refl s
  | case4 s hs p rest v h ih => exact ih
  | case5 s hs p rest v t h hne hocc => exact .refl s
  | case6 s hs p rest v t h hne hocc hmem hbind ih => exact .insert hbind.1 hbind.2 hmem ih

/-- Unifying only adds bindings, also when it fails. -/
theorem grows_unify (s : Subst) (a b : Ty) : s.Grows (s.unify a b).1 := by
  unfold unify
  split
  · exact grows_unifyAll _ s _ _
  · exact .refl s

theorem grows_of_unify {s s' : Subst} {a b : Ty} {outcome : Except Error Unit}
    (h : s.unify a b = (s', outcome)) : s.Grows s' := by
  have hgrows := grows_unify s a b
  rwa [h] at hgrows

/-- Binding only adds bindings, also when it fails. -/
theorem grows_bind {s : Subst} (hs : s.Acyclic) (v : VarId) (t : Ty) : s.Grows (s.bind v t).1 := by
  unfold bind
  split
  · exact grows_unify s _ t
  · rename_i hnone
    have hv : s.isBound v = false := not_isBound_iff.mpr hnone
    simp only
    split
    · exact .refl s
    split
    · exact .refl s
    · rename_i hocc
      have hmem : v ∉ (s.apply t).vars := fun h => hocc (Ty.occurs_iff.mpr h)
      exact .insert hv (hs.resolved_apply t) hmem (.refl _)

/-- The substitutions that calls of `bind` and `unify`, with whatever outcome, make of the empty
one. -/
inductive Reachable : Subst → Prop
  | empty : Reachable empty
  | bind {s : Subst} (h : Reachable s) (v : VarId) (t : Ty) : Reachable (s.bind v t).1
  | unify {s : Subst} (h : Reachable s) (a b : Ty) : Reachable (s.unify a b).1

/-- No sequence of calls makes a cycle. -/
theorem Reachable.acyclic {s : Subst} (h : s.Reachable) : s.Acyclic := by
  induction h with
  | empty => exact acyclic_empty
  | bind _ v t ih => exact (grows_bind ih v t).acyclic ih
  | unify _ a b ih => exact (grows_unify _ a b).acyclic ih

/-! ## Following bindings ends -/

/-- Applying the substitution to `t` leads to applying it to `u`, which is stored for a variable
of `t`. -/
def LeadsTo (s : Subst) (t u : Ty) : Prop := ∃ v ∈ t.vars, s.lookup v = some u

/-- The recursion of `apply` is well-founded. -/
theorem Acyclic.wellFounded_leadsTo {s : Subst} (h : s.Acyclic) :
    WellFounded fun u t => s.LeadsTo t u := by
  obtain ⟨rank, hrank, hsize⟩ := h.exists_rank_lt_size
  -- every step goes to a type whose bound variables have smaller ranks
  have hacc : ∀ depth t, (∀ v ∈ t.vars, s.isBound v = true → rank v < depth) →
      Acc (fun u t => s.LeadsTo t u) t := by
    intro depth
    induction depth with
    | zero =>
      intro t ht
      refine ⟨t, fun u hu => ?_⟩
      obtain ⟨v, hv, hlook⟩ := hu
      exact absurd (ht v hv (isBound_iff.mpr ⟨u, hlook⟩)) (Nat.not_lt_zero _)
    | succ depth ih =>
      intro t ht
      refine ⟨t, fun u hu => ih u fun w hw hb => ?_⟩
      obtain ⟨v, hv, hlook⟩ := hu
      have hlt := hrank v u hlook w hw hb
      have hle := ht v hv (isBound_iff.mpr ⟨u, hlook⟩)
      omega
  exact ⟨fun t => hacc s.size t fun v _ hb => hsize v hb⟩

/-- Once a variable is resolved, following more bindings changes nothing. -/
theorem Ranks.resolve_succ {s : Subst} {rank : VarId → Nat} (h : s.Ranks rank) (depth : Nat) :
    ∀ v, (s.isBound v = true → rank v < depth) → s.resolve (depth + 1) v = s.resolve depth v := by
  induction depth with
  | zero =>
    intro v hv
    have hb : s.isBound v = false := by
      cases hb : s.isBound v with
      | false => rfl
      | true => exact absurd (hv hb) (Nat.not_lt_zero _)
    rw [resolve_of_unbound hb, resolve_of_unbound hb]
  | succ depth ih =>
    intro v hv
    rw [resolve, resolve]
    cases hlook : s.lookup v with
    | none => rfl
    | some t =>
      refine Ty.subst_congr fun w hw => ih w fun hb => ?_
      -- ranks fall along bindings, so that one step less is enough for the variables of the type
      have hlt := h v t hlook w hw hb
      have hle := hv (isBound_iff.mpr ⟨t, hlook⟩)
      omega

/-- The type that a variable stands for: itself, or what is stored for it with the substitution
applied. -/
def image (s : Subst) (v : VarId) : Ty :=
  match s.lookup v with
  | none => .var v
  | some t => s.apply t

theorem Acyclic.resolve_size_eq_image {s : Subst} (h : s.Acyclic)
    (hne : s.bindings.isEmpty = false) (v : VarId) : s.resolve s.size v = s.image v := by
  obtain ⟨rank, hrank, hsize⟩ := h.exists_rank_lt_size
  rw [← hrank.resolve_succ s.size v (hsize v), resolve, image]
  cases s.lookup v with
  | none => rfl
  | some t => simp [apply, hne]

/-- Applying a substitution replaces each variable by its image; the empty one changes nothing. -/
theorem Acyclic.apply_eq {s : Subst} (h : s.Acyclic) (t : Ty) :
    s.apply t = if s.bindings.isEmpty then t else t.subst s.image := by
  unfold apply
  split
  · rfl
  · rename_i hne
    exact Ty.subst_congr fun v _ => h.resolve_size_eq_image (by simpa using hne) v

theorem Acyclic.apply_eq_subst_image {s : Subst} (h : s.Acyclic) (hne : s.bindings.isEmpty = false)
    (t : Ty) : s.apply t = t.subst s.image := by
  rw [h.apply_eq, if_neg (by simp [hne])]

/-! ## Applying twice -/

/-- In what a variable resolves to, every function has a return type. -/
theorem resolve_subst_var (s : Subst) (depth : Nat) :
    ∀ v, (s.resolve depth v).subst .var = s.resolve depth v := by
  induction depth with
  | zero => exact fun v => rfl
  | succ depth ih =>
    intro v
    rw [resolve]
    cases s.lookup v with
    | none => rfl
    | some t =>
      rw [Ty.subst_subst]
      exact Ty.subst_congr fun w _ => ih w

/-- Applying an acyclic substitution twice is applying it once. -/
theorem Acyclic.apply_apply {s : Subst} (h : s.Acyclic) (t : Ty) :
    s.apply (s.apply t) = s.apply t := by
  unfold apply
  split
  · rfl
  · rw [Ty.subst_subst]
    refine Ty.subst_congr fun v _ => ?_
    rw [subst_resolve_of_unbound (h.resolved_resolve v), resolve_subst_var]

theorem Grows.isEmpty_eq_false {s s' : Subst} (h : s.Grows s') (hs : s.bindings.isEmpty = false) :
    s'.bindings.isEmpty = false := by
  induction h with
  | refl s => exact hs
  | insert _ _ _ _ ih => exact ih rfl

theorem Grows.subst_image_resolve {s s' : Subst} (h : s.Grows s') (hs' : s'.Acyclic)
    (hne : s'.bindings.isEmpty = false) (depth : Nat) :
    ∀ v, (s.resolve depth v).subst s'.image = s'.image v := by
  induction depth with
  | zero => exact fun v => rfl
  | succ depth ih =>
    intro v
    rw [resolve]
    cases hv : s.lookup v with
    | none => rfl
    | some t =>
      show (t.subst (s.resolve depth)).subst s'.image = s'.image v
      rw [Ty.subst_subst, Ty.subst_congr fun w _ => ih w, image, h.lookup hv]
      show t.subst s'.image = s'.apply t
      rw [hs'.apply_eq_subst_image hne]

/-- What was inferred of a type before adds nothing to what is inferred of it later. -/
theorem Grows.apply_apply {s s' : Subst} (h : s.Grows s') (hs : s.Acyclic) (t : Ty) :
    s'.apply (s.apply t) = s'.apply t := by
  by_cases hempty : s.bindings.isEmpty = true
  · rw [apply_of_isEmpty hempty]
  · have hne := h.isEmpty_eq_false (Bool.eq_false_iff.mpr hempty)
    have hs' := h.acyclic hs
    rw [hs'.apply_eq_subst_image hne, hs'.apply_eq_subst_image hne, apply, if_neg hempty, Ty.subst_subst]
    exact Ty.subst_congr fun v _ => h.subst_image_resolve hs' hne s.size v

/-- Every substitution that binding and unifying make is acyclic, so that following its bindings
ends. Applying it leaves no bound variable, and applying it again changes nothing. -/
theorem Reachable.acyclic_and_apply_idempotent {s : Subst} (h : s.Reachable) :
    s.Acyclic ∧ (WellFounded fun u t => s.LeadsTo t u) ∧
      ∀ t, (s.apply t = if s.bindings.isEmpty then t else t.subst s.image) ∧
        (∀ v ∈ (s.apply t).vars, s.isBound v = false) ∧ s.apply (s.apply t) = s.apply t := by
  have hs := h.acyclic
  refine ⟨hs, hs.wellFounded_leadsTo, fun t => ?_⟩
  exact ⟨hs.apply_eq t, hs.resolved_apply t, hs.apply_apply t⟩

/-- A unification that fails at its second pair keeps the binding of the first, which completes a
chain. -/
theorem Reachable.acyclic_and_apply_idempotent_of_failure :
    let s : Subst := ((Subst.empty.bind 0 (.tuple [.var 1, .var 2])).1.unify
      (.tuple [.var 1, .prim "u8"]) (.tuple [.prim "bool", .prim "i32"])).1
    s.Reachable ∧ s.apply (.var 0) = .tuple [.prim "bool", .var 2] ∧
      s.Acyclic ∧ s.apply (s.apply (.var 0)) = s.apply (.var 0) := by
  intro s
  have hbound := Reachable.empty.bind 0 (.tuple [.var 1, .var 2])
  have hreach : s.Reachable := hbound.unify _ _
  have hchain : s.apply (.var 0) = .tuple [.prim "bool", .var 2] := by
    unfold s
    rw [hbound.acyclic.unify_eq]
    cbv
  obtain ⟨hacyclic, -, happly⟩ := hreach.acyclic_and_apply_idempotent
  exact ⟨hreach, hchain, hacyclic, (happly (.var 0)).2.2⟩

end Generics.Subst
