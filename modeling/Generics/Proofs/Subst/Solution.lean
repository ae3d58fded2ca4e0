import Generics.Proofs.Subst.Reachable
import Generics.Proofs.Ty.Erasure

/-!
# Solutions of substitutions

A substitution is a set of equations, one for each bound variable, and an assignment of types to
variables *solves* it when both sides of each equation have the same value. Regions play no part in
values, as they play none in unification.

Unification keeps the set of solutions at every step: splitting a pair into its components, dropping
a pair of equal variables and binding a variable replace equations by equivalent ones, and a pair
that clashes or fails the occurs check has no solution. So a run that succeeds ends in a
substitution with exactly the solutions of the old equations and the new one, and a run that fails
shows that there were none.

## Main results

* `Solves.valueAt_apply`: for a solution, applying the substitution keeps values;
* `solves_unifyAll_iff` and `not_unifies_of_unifyAll_error`: what success and failure say of a list
  of pairs;
* `Reachable.unify_solutions`: unification is complete and most general.
-/

namespace Generics

namespace Ty

/-! ## Comparing outermost shapes -/

/-- Two lists of types have the same values when they have the same length and the same values in
each place. -/
theorem map_valueAt_eq_iff {σ : VarId → Ty} {as bs : List Ty} (hlen : as.length = bs.length) :
    as.map (valueAt σ) = bs.map (valueAt σ) ↔ ∀ p ∈ as.zip bs, p.1.valueAt σ = p.2.valueAt σ := by
  induction as generalizing bs with
  | nil =>
    cases bs with
    | nil => simp
    | cons b bs => simp at hlen
  | cons a as ih =>
    cases bs with
    | nil => simp at hlen
    | cons b bs => simp [ih (Nat.succ.inj hlen)]

/-- A type and a type with components of another number have different values. -/
theorem map_valueAt_ne {σ : VarId → Ty} {as bs : List Ty} (hlen : as.length ≠ bs.length) :
    as.map (valueAt σ) ≠ bs.map (valueAt σ) := by
  intro heq
  have := congrArg List.length heq
  simp only [List.length_map] at this
  exact hlen this

/-- What comparing the outermost shapes of two types says of their values. A pair to be bound has
the variable on one side. A pair that splits has the same value exactly when its components do. A
pair that clashes never has. -/
theorem confront_spec (σ : VarId → Ty) (a b : Ty) :
    match confront a b with
    | .bind v t => (a = .var v ∧ b = t) ∨ (b = .var v ∧ a = t)
    | .split pairs => a.valueAt σ = b.valueAt σ ↔ ∀ p ∈ pairs, p.1.valueAt σ = p.2.valueAt σ
    | .clash _ => a.valueAt σ ≠ b.valueAt σ := by
  fun_cases confront a b with
  | case1 v t => exact .inl ⟨rfl, rfl⟩
  | case2 t v hvar => exact .inr ⟨rfl, rfl⟩
  | case3 p => simp
  | case4 p q hne => simpa [valueAt_prim] using hne
  | case5 n rs as m ss bs h =>
    obtain ⟨rfl, hlen⟩ := h
    simpa [valueAt_named] using map_valueAt_eq_iff hlen
  | case6 n rs as m ss bs hne =>
    intro heq
    rw [valueAt_named, valueAt_named] at heq
    injection heq with hname _ hargs
    exact hne ⟨hname, by simpa using congrArg List.length hargs⟩
  | case7 as bs hlen => simpa [valueAt_tuple] using map_valueAt_eq_iff hlen
  | case8 as bs hne => simpa [valueAt_tuple] using map_valueAt_ne hne
  | case9 a n b => simp [valueAt_array]
  | case10 a n b m hne => simp [valueAt_array, hne]
  | case11 r p a s b => simp [valueAt_ref]
  | case12 r p a s q b hne => simp [valueAt_ref, hne]
  | case13 p a b => simp [valueAt_ptr]
  | case14 p a q b hne => simp [valueAt_ptr, hne]
  | case15 as ra bs rb hlen =>
    simp only [valueAt_fn, fn.injEq, Option.some.injEq, map_valueAt_eq_iff hlen,
      List.forall_mem_append, List.forall_mem_singleton]
  | case16 as ra bs rb hne =>
    simp only [valueAt_fn, ne_eq, fn.injEq, not_and]
    exact fun heq => absurd heq (map_valueAt_ne hne)
  | case17 a b hleft hright hprim hnamed htuple harray href hptr hfn =>
    -- no two types of the same shape are left, and values keep the shape
    cases a <;> cases b <;>
      grind [valueAt_prim, valueAt_tuple, valueAt_array, valueAt_ref, valueAt_ptr, valueAt_fn,
        valueAt_named]

end Ty

namespace Subst

/-! ## Solutions -/

/-- The assignment gives every bound variable the value of the type stored for it. -/
def Solves (s : Subst) (σ : VarId → Ty) : Prop :=
  ∀ v t, s.lookup v = some t → (Ty.var v).valueAt σ = t.valueAt σ

/-- The assignment gives the two types of each pair the same value. -/
def Unifies (σ : VarId → Ty) (work : List (Ty × Ty)) : Prop :=
  ∀ p ∈ work, p.1.valueAt σ = p.2.valueAt σ

theorem unifies_cons {σ : VarId → Ty} {p : Ty × Ty} {work : List (Ty × Ty)} :
    Unifies σ (p :: work) ↔ p.1.valueAt σ = p.2.valueAt σ ∧ Unifies σ work :=
  List.forall_mem_cons

theorem unifies_append {σ : VarId → Ty} {pairs rest : List (Ty × Ty)} :
    Unifies σ (pairs ++ rest) ↔ Unifies σ pairs ∧ Unifies σ rest :=
  List.forall_mem_append

/-- A solution solves everything that the substitution grew from. -/
theorem Grows.solves {s s' : Subst} (h : s.Grows s') {σ : VarId → Ty} (hσ : s'.Solves σ) :
    s.Solves σ :=
  fun v t hv => hσ v t (h.lookup hv)

/-- One more binding is one more equation. -/
theorem solves_insert_iff {s : Subst} {v : VarId} (hv : s.isBound v = false) {t : Ty}
    {σ : VarId → Ty} :
    (s.insert v t).Solves σ ↔ s.Solves σ ∧ (Ty.var v).valueAt σ = t.valueAt σ := by
  constructor
  · intro h
    refine ⟨fun w u hw => h w u ?_, h v t (lookup_insert_self s v t)⟩
    have hne : w ≠ v := by
      rintro rfl
      rw [not_isBound_iff.mp hv] at hw
      cases hw
    rw [lookup_insert_of_ne s t hne, hw]
  · rintro ⟨h, heq⟩ w u hw
    by_cases hwv : w = v
    · subst hwv
      obtain rfl : t = u := Option.some.inj ((lookup_insert_self s w t).symm.trans hw)
      exact heq
    · exact h w u ((lookup_insert_of_ne s t hwv).symm.trans hw)

/-- Following bindings keeps the value of a variable. -/
theorem Solves.valueAt_resolve {s : Subst} {σ : VarId → Ty} (h : s.Solves σ) (depth : Nat) :
    ∀ v, (s.resolve depth v).valueAt σ = (Ty.var v).valueAt σ := by
  induction depth with
  | zero => exact fun v => rfl
  | succ depth ih =>
    intro v
    rw [resolve]
    cases hlook : s.lookup v with
    | none => rfl
    | some t => exact (Ty.valueAt_subst ih t).trans (h v t hlook).symm

/-- Applying a substitution keeps the value of a type. -/
theorem Solves.valueAt_apply {s : Subst} {σ : VarId → Ty} (h : s.Solves σ) (t : Ty) :
    (s.apply t).valueAt σ = t.valueAt σ := by
  unfold apply
  split
  · rfl
  · exact Ty.valueAt_subst (h.valueAt_resolve s.size) t

/-! ## A substitution solves itself -/

/-- The value of a type under the images of variables is what the substitution makes of it. -/
theorem Acyclic.valueAt_image {s : Subst} (h : s.Acyclic) (t : Ty) :
    t.valueAt s.image = (s.apply t).erase := by
  rw [h.apply_eq]
  split
  · rename_i hempty
    have himage : s.image = Ty.var := by
      funext v
      rw [image, not_isBound_iff.mp (isBound_of_isEmpty hempty v)]
    rw [himage, Ty.valueAt_self]
  · rfl

/-- The images of variables under an acyclic substitution are a solution of it. -/
theorem Acyclic.solves_image {s : Subst} (h : s.Acyclic) : s.Solves s.image := by
  intro v t hv
  rw [h.valueAt_image t, Ty.valueAt_var, image, hv]

/-! ## What a run of unification says -/

/-- A pair has the same value exactly when the pair of resolved types has. -/
theorem Solves.valueAt_eq_iff {s : Subst} {σ : VarId → Ty} (h : s.Solves σ) (a b : Ty) :
    a.valueAt σ = b.valueAt σ ↔ (s.apply a).valueAt σ = (s.apply b).valueAt σ := by
  rw [h.valueAt_apply, h.valueAt_apply]

/-- A pair that comes to binding a variable has the same value exactly when variable and type
have. -/
theorem Solves.valueAt_eq_iff_of_bind {s : Subst} {σ : VarId → Ty} (h : s.Solves σ)
    {p : Ty × Ty} {v : VarId} {t : Ty}
    (hbind : Ty.confront (s.apply p.1) (s.apply p.2) = .bind v t) :
    p.1.valueAt σ = p.2.valueAt σ ↔ (Ty.var v).valueAt σ = t.valueAt σ := by
  rw [h.valueAt_eq_iff]
  rcases Ty.confront_bind hbind with ⟨hvar, hterm⟩ | ⟨hvar, hterm⟩
  · rw [hvar, hterm]
  · rw [hvar, hterm, eq_comm]

/-- A pair that splits has the same value exactly when the components have. -/
theorem Solves.unifies_of_split {s : Subst} {σ : VarId → Ty} (h : s.Solves σ) {p : Ty × Ty}
    {pairs : List (Ty × Ty)} (hsplit : Ty.confront (s.apply p.1) (s.apply p.2) = .split pairs) :
    p.1.valueAt σ = p.2.valueAt σ ↔ Unifies σ pairs := by
  have hspec := Ty.confront_spec σ (s.apply p.1) (s.apply p.2)
  rw [hsplit] at hspec
  rw [h.valueAt_eq_iff]
  exact hspec

/-- A successful run ends in a substitution whose solutions are those of the first one that also
make all pairs equal. -/
theorem solves_unifyAll_iff {goal : Ty × Ty} {s s' : Subst} {hs : s.Acyclic}
    {work : List (Ty × Ty)} (h : s.unifyAll goal hs work = (s', .ok ())) (σ : VarId → Ty) :
    s'.Solves σ ↔ s.Solves σ ∧ Unifies σ work := by
  fun_induction unifyAll goal s hs work with
  | case1 s hs =>
    obtain rfl : s = s' := congrArg Prod.fst h
    simp [Unifies]
  | case2 s hs p rest pairs hsplit ih =>
    -- the pair is equal exactly if all of its parts are
    rw [ih h, unifies_cons, unifies_append]
    exact and_congr_right fun hσ => and_congr_left fun _ => (hσ.unifies_of_split hsplit).symm
  | case3 s hs p rest context hclash => cases h
  | case4 s hs p rest v hbind ih =>
    rw [ih h, unifies_cons]
    refine and_congr_right fun hσ => ?_
    rw [hσ.valueAt_eq_iff_of_bind hbind]
    simp
  | case5 s hs p rest v t hbind hne hocc => cases h
  | case6 s hs p rest v t hbind hne hocc hmem hfree ih =>
    -- the new binding says what the pair says
    rw [ih h, solves_insert_iff hfree.1, unifies_cons, and_assoc]
    refine and_congr_right fun hσ => ?_
    rw [hσ.valueAt_eq_iff_of_bind hbind]

/-- A failing run shows that no solution makes all pairs equal. -/
theorem not_unifies_of_unifyAll_error {goal : Ty × Ty} {s s' : Subst} {hs : s.Acyclic}
    {work : List (Ty × Ty)} {e : Error} (h : s.unifyAll goal hs work = (s', .error e))
    {σ : VarId → Ty} (hσ : s.Solves σ) : ¬Unifies σ work := by
  fun_induction unifyAll goal s hs work with
  | case1 s hs => cases h
  | case2 s hs p rest pairs hsplit ih =>
    rw [unifies_cons, hσ.unifies_of_split hsplit, ← unifies_append]
    exact ih h hσ
  | case3 s hs p rest context hclash =>
    -- types of different outermost shapes are never equal
    have hspec := Ty.confront_spec σ (s.apply p.1) (s.apply p.2)
    rw [hclash] at hspec
    rw [unifies_cons, hσ.valueAt_eq_iff]
    exact fun hall => hspec hall.1
  | case4 s hs p rest v hbind ih => exact fun hall => ih h hσ (unifies_cons.mp hall).2
  | case5 s hs p rest v t hbind hne hocc =>
    -- no type is equal to a larger one that it is a part of
    rw [unifies_cons, hσ.valueAt_eq_iff_of_bind hbind]
    exact fun hall => Ty.valueAt_var_ne_of_mem_vars σ (Ty.occurs_iff.mp hocc) hne hall.1
  | case6 s hs p rest v t hbind hne hocc hmem hfree ih =>
    rw [unifies_cons, hσ.valueAt_eq_iff_of_bind hbind]
    rintro ⟨heq, hrest⟩
    exact ih h ((solves_insert_iff hfree.1).mpr ⟨hσ, heq⟩) hrest

/-- A successful unification adds exactly the equation of the two types. -/
theorem Acyclic.solves_unify_iff {s s' : Subst} (hs : s.Acyclic) {a b : Ty}
    (h : s.unify a b = (s', .ok ())) (σ : VarId → Ty) :
    s'.Solves σ ↔ s.Solves σ ∧ a.valueAt σ = b.valueAt σ := by
  rw [hs.unify_eq] at h
  simpa [Unifies] using solves_unifyAll_iff h σ

/-- A failing unification shows that no solution makes the two types equal. -/
theorem Acyclic.valueAt_ne_of_unify_error {s s' : Subst} (hs : s.Acyclic) {a b : Ty} {e : Error}
    (h : s.unify a b = (s', .error e)) {σ : VarId → Ty} (hσ : s.Solves σ) :
    a.valueAt σ ≠ b.valueAt σ := by
  rw [hs.unify_eq] at h
  simpa [Unifies] using not_unifies_of_unifyAll_error h hσ

/-- Unification is complete and most general. When it succeeds, the solutions of the new
substitution are those of the old one that make the two types equal, and when it fails there are
none of these. -/
theorem Reachable.unify_solutions {s : Subst} (h : s.Reachable) (a b : Ty) :
    (∀ s', s.unify a b = (s', .ok ()) →
      ∀ σ, s'.Solves σ ↔ s.Solves σ ∧ a.valueAt σ = b.valueAt σ) ∧
    ∀ s' e, s.unify a b = (s', .error e) → ∀ σ, s.Solves σ → a.valueAt σ ≠ b.valueAt σ := by
  have hs := h.acyclic
  refine ⟨fun s' hok => hs.solves_unify_iff hok, ?_⟩
  intro s' e herror σ hσ
  exact hs.valueAt_ne_of_unify_error herror hσ

/-- With `?0` bound to `(?1,)`, the types `?1` and `u8` have one most general solution, and the
types `?1` and `(?0,)` have none. -/
theorem Reachable.unify_solutions_of_chain :
    let s : Subst := (Subst.empty.bind 0 (.tuple [.var 1])).1
    let s' : Subst := ⟨[(1, .prim "u8"), (0, .tuple [.var 1])]⟩
    s.Reachable ∧
      (∀ σ, s'.Solves σ ↔ s.Solves σ ∧ (Ty.var 1).valueAt σ = (Ty.prim "u8").valueAt σ) ∧
      ∀ σ, s.Solves σ → (Ty.var 1).valueAt σ ≠ (Ty.tuple [.var 0]).valueAt σ := by
  intro s s'
  have hreach : s.Reachable := Reachable.empty.bind _ _
  have hok : s.unify (.var 1) (.prim "u8") = (s', .ok ()) := by
    rw [hreach.acyclic.unify_eq]
    unfold s s'
    cbv
  have herror : s.unify (.var 1) (.tuple [.var 0])
      = (s, .error (.infiniteType "?1" "((?1,),)")) := by
    rw [hreach.acyclic.unify_eq]
    unfold s
    cbv
  exact ⟨hreach, (hreach.unify_solutions _ _).1 s' hok, (hreach.unify_solutions _ _).2 s _ herror⟩

end Subst

end Generics
