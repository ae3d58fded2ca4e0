import Generics.Proofs.Subst.Reachable

/-!
# What binding and unifying leave alone

A call of `unify` or `bind` never touches a binding that is there, and it binds no variable that does
not occur in its two types once these are resolved. Neither holds of success alone: a call that
fails keeps the bindings it made, and these obey the same rule.

The variables that a run may bind are bounded together with the variables of the types it stores,
because what is stored for the first components comes up again in the later ones. `GrowsWithin` is
`Grows` with this bound, and `growsWithin_unifyAll` shows that the variables open at the start of a run
are a bound for all of it.

## Main results

* `growsWithin_unify` and `growsWithin_bind`: a call binds only variables of its resolved types;
* `rejected_of_unify` and `rejected_of_bind`: the variable that an occurs check reports is still unbound;
* `Reachable.unify_bind_frame`: both, for every substitution that calls can make.
-/

namespace Generics.Subst

/-! ## Growing within a set of variables -/

/-- The second substitution comes from the first by binding unbound variables, one after the other,
to resolved types that do not mention them. The variables bound, and those of the types stored, are
among the given ones. -/
inductive GrowsWithin (vars : List VarId) : Subst → Subst → Prop
  | refl (s : Subst) : GrowsWithin vars s s
  | insert {s s' : Subst} {v : VarId} {t : Ty} (hv : s.isBound v = false) (ht : s.Resolved t)
      (hocc : v ∉ t.vars) (hwithin : ∀ w, w = v ∨ w ∈ t.vars → w ∈ vars)
      (hgrows : GrowsWithin vars (s.insert v t) s') : GrowsWithin vars s s'

namespace GrowsWithin

variable {s s' : Subst} {vars : List VarId}

theorem grows (h : GrowsWithin vars s s') : s.Grows s' := by
  induction h with
  | refl s => exact .refl s
  | insert hv ht hocc _ _ ih => exact .insert hv ht hocc ih

theorem mono (h : GrowsWithin vars s s') {vars' : List VarId} (hsub : ∀ v ∈ vars, v ∈ vars') :
    GrowsWithin vars' s s' := by
  induction h with
  | refl s => exact .refl s
  | insert hv ht hocc hwithin _ ih =>
    exact .insert hv ht hocc (fun w hw => hsub w (hwithin w hw)) ih

/-- Only the given variables are newly bound. -/
theorem mem_of_isBound (h : GrowsWithin vars s s') {v : VarId} (hafter : s'.isBound v = true)
    (hbefore : s.isBound v = false) : v ∈ vars := by
  induction h with
  | refl s =>
    rw [hbefore] at hafter
    exact absurd hafter (by decide)
  | @insert s s' w t _ _ _ hwithin _ ih =>
    by_cases hvw : v = w
    · exact hwithin v (.inl hvw)
    · refine ih hafter ?_
      rw [isBound_insert, hbefore]
      simp [hvw]

end GrowsWithin

/-! ## Runs of unification -/

/-- Working through pairs binds only variables that are open at the start. -/
theorem growsWithin_unifyAll (goal : Ty × Ty) (s : Subst) (hs : s.Acyclic)
    (work : List (Ty × Ty)) :
    GrowsWithin (s.openVars work) s (s.unifyAll goal hs work).1 := by
  fun_induction unifyAll goal s hs work with
  | case1 s hs => exact .refl s
  | case2 s hs p rest pairs h ih => exact ih.mono (openVars_split_subset hs h rest)
  | case3 s hs p rest context h => exact .refl s
  | case4 s hs p rest v h ih => exact ih.mono (openVars_cons_subset s p rest)
  | case5 s hs p rest v t h hne hocc => exact .refl s
  | case6 s hs p rest v t h hne hocc hmem hbind ih =>
    -- what is open after the binding was open before, so one bound serves for the whole run
    refine .insert hbind.1 hbind.2 hmem (fun w hw => ?_) ?_
    · exact mem_openVars_of_confront_bind h rest hw
    · exact ih.mono (openVars_bind_subset hs h hmem rest)

/-- Unifying binds only variables of the two resolved types. -/
theorem growsWithin_unify (s : Subst) (a b : Ty) :
    GrowsWithin (s.openVars [(a, b)]) s (s.unify a b).1 := by
  unfold unify
  split
  · exact growsWithin_unifyAll _ s _ _
  · exact .refl s

/-- A bound variable stands for what is stored for it. -/
theorem Acyclic.apply_var_of_lookup {s : Subst} (hs : s.Acyclic) {v : VarId} {t : Ty}
    (hv : s.lookup v = some t) : s.apply (.var v) = s.apply t := by
  have hne : ¬s.bindings.isEmpty = true := by
    intro hempty
    have hunbound := not_isBound_iff.mp (isBound_of_isEmpty hempty v)
    rw [hv] at hunbound
    cases hunbound
  rw [hs.apply_eq (.var v), if_neg hne]
  show s.image v = s.apply t
  rw [image, hv]

/-- An unbound variable stands for itself. -/
theorem apply_var_of_unbound {s : Subst} {v : VarId} (hv : s.isBound v = false) :
    s.apply (.var v) = .var v := by
  unfold apply
  split
  · rfl
  · exact resolve_of_unbound hv s.size

/-- Binding a variable binds only it, if it is unbound, and variables of the two resolved types. -/
theorem growsWithin_bind {s : Subst} (hs : s.Acyclic) (v : VarId) (t : Ty) :
    GrowsWithin (s.openVars [(.var v, t)]) s (s.bind v t).1 := by
  unfold bind
  split
  · rename_i stored hlook
    -- the stored type takes the place of the variable, and both resolve to the same type
    have hopen : s.openVars [(stored, t)] = s.openVars [(.var v, t)] := by
      simp only [openVars, List.flatMap_cons, hs.apply_var_of_lookup hlook]
    exact hopen ▸ growsWithin_unify s stored t
  · rename_i hnone
    have hv : s.isBound v = false := not_isBound_iff.mpr hnone
    simp only
    split
    · exact .refl s
    split
    · exact .refl s
    · rename_i hocc
      have hmem : v ∉ (s.apply t).vars := fun h => hocc (Ty.occurs_iff.mpr h)
      refine .insert hv (hs.resolved_apply t) hmem (fun w hw => ?_) (.refl _)
      refine mem_openVars.mpr ⟨(.var v, t), List.mem_singleton_self _, ?_⟩
      rw [apply_var_of_unbound hv]
      exact hw.imp (fun heq => by simp [Ty.vars, heq]) id

/-! ## Bindings that the occurs check rejects -/

/-- The error reports a binding that fails the occurs check: a variable, which has no binding, and a
resolved type other than the variable that mentions it. -/
def Rejected (s : Subst) (e : Error) : Prop :=
  ∃ v t, e = .infiniteType (Ty.var v).render t.render ∧ t ≠ .var v ∧ v ∈ t.vars ∧
    s.isBound v = false ∧ s.Resolved t

theorem rejected_of_unifyAll {goal : Ty × Ty} {s s' : Subst} {hs : s.Acyclic}
    {work : List (Ty × Ty)} {name type : String}
    (h : s.unifyAll goal hs work = (s', .error (.infiniteType name type))) :
    s'.Rejected (.infiniteType name type) := by
  fun_induction unifyAll goal s hs work with
  | case1 s hs => cases h
  | case2 s hs p rest pairs hsplit ih => exact ih h
  | case3 s hs p rest context hclash => cases h
  | case4 s hs p rest v hbind ih => exact ih h
  | case5 s hs p rest v t hbind hne hocc =>
    obtain ⟨rfl, herror⟩ := Prod.mk.inj h
    obtain ⟨hunbound, hresolved⟩ := resolved_of_confront_bind hs hbind
    exact ⟨v, t, (Except.error.inj herror).symm, hne, Ty.occurs_iff.mp hocc, hunbound, hresolved⟩
  | case6 s hs p rest v t hbind hne hocc hmem hfree ih => exact ih h

theorem rejected_of_unify {s s' : Subst} (hs : s.Acyclic) {a b : Ty} {name type : String}
    (h : s.unify a b = (s', .error (.infiniteType name type))) :
    s'.Rejected (.infiniteType name type) := by
  rw [hs.unify_eq] at h
  exact rejected_of_unifyAll h

theorem rejected_of_bind {s s' : Subst} (hs : s.Acyclic) {v : VarId} {t : Ty} {name type : String}
    (h : s.bind v t = (s', .error (.infiniteType name type))) :
    s'.Rejected (.infiniteType name type) := by
  unfold bind at h
  split at h
  · exact rejected_of_unify hs h
  · rename_i hnone
    simp only at h
    split at h
    · cases h
    split at h
    · rename_i hne hocc
      obtain ⟨rfl, herror⟩ := Prod.mk.inj h
      exact ⟨v, s.apply t, (Except.error.inj herror).symm, hne, Ty.occurs_iff.mp hocc,
        not_isBound_iff.mpr hnone, hs.resolved_apply t⟩
    · cases h

/-! ## The frame of a call -/

/-- The second substitution has everything that the first one stores, literally, and besides it binds
only variables of the two types as the first one resolves them. -/
structure ExtendsFor (s s' : Subst) (a b : Ty) : Prop where
  keeps : ∀ v t, s.lookup v = some t → s'.lookup v = some t
  binds : ∀ v, s.isBound v = false → s'.isBound v = true →
    v ∈ (s.apply a).vars ∨ v ∈ (s.apply b).vars

theorem GrowsWithin.extendsFor {s s' : Subst} {a b : Ty}
    (h : GrowsWithin (s.openVars [(a, b)]) s s') : s.ExtendsFor s' a b where
  keeps _ _ hv := h.grows.lookup hv
  binds v hbefore hafter := by
    obtain ⟨p, hp, hv⟩ := mem_openVars.mp (h.mem_of_isBound hafter hbefore)
    obtain rfl : p = (a, b) := List.mem_singleton.mp hp
    exact hv

/-- Whatever `unify` and `bind` return, they keep what is stored and bind only variables of their two
types as these were resolved before the call; for `bind` the first type is the variable. A binding
that the occurs check rejects is not recorded. -/
theorem Reachable.unify_bind_frame {s : Subst} (h : s.Reachable) (a b : Ty) (v : VarId) :
    s.ExtendsFor (s.unify a b).1 a b ∧ s.ExtendsFor (s.bind v b).1 (.var v) b ∧
      (∀ s' name type, s.unify a b = (s', .error (.infiniteType name type)) →
        s'.Rejected (.infiniteType name type)) ∧
      ∀ s' name type, s.bind v b = (s', .error (.infiniteType name type)) →
        s'.Rejected (.infiniteType name type) := by
  have hs := h.acyclic
  refine ⟨(growsWithin_unify s a b).extendsFor, (growsWithin_bind hs v b).extendsFor, ?_, ?_⟩
  · exact fun s' name type herror => rejected_of_unify hs herror
  · exact fun s' name type herror => rejected_of_bind hs herror

/-- With `?0` bound to `(?1, ?2)`, unifying `(?1, ?0)` with `(u8, ?2)` binds `?1` and then fails the
occurs check at `?2`, which stays unbound. -/
theorem Reachable.unify_bind_frame_of_failure :
    let s : Subst := (Subst.empty.bind 0 (.tuple [.var 1, .var 2])).1
    let s' : Subst := (s.unify (.tuple [.var 1, .var 0]) (.tuple [.prim "u8", .var 2])).1
    s.Reachable ∧ s'.lookup 0 = some (.tuple [.var 1, .var 2]) ∧ s'.isBound 1 = true ∧
      s'.Rejected (.infiniteType "?2" "(u8, ?2)") := by
  intro s s'
  have hreach : s.Reachable := Reachable.empty.bind _ _
  have hrun : s.unify (.tuple [.var 1, .var 0]) (.tuple [.prim "u8", .var 2])
      = (s', .error (.infiniteType "?2" "(u8, ?2)")) := by
    unfold s'
    rw [hreach.acyclic.unify_eq]
    unfold s
    cbv
  have hbound : s'.isBound 1 = true := by
    unfold s'
    rw [hreach.acyclic.unify_eq]
    unfold s
    cbv
  obtain ⟨hunify, -, hreject, -⟩ := hreach.unify_bind_frame (.tuple [.var 1, .var 0])
    (.tuple [.prim "u8", .var 2]) 0
  exact ⟨hreach, hunify.keeps 0 _ rfl, hbound, hreject s' _ _ hrun⟩

end Generics.Subst
