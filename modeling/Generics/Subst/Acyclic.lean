import Generics.Subst.Basic

/-!
# Acyclic substitutions

In an acyclic substitution every chain of bindings ends, and applying the substitution leaves no bound
variable. Binding an unbound variable to a type that is already resolved and does not mention it keeps
the substitution acyclic. Whether a substitution is acyclic can be decided by following the bindings
of each variable to the depth of its size.
-/

namespace Generics.Subst

/-- The type has no bound variable. -/
def Resolved (s : Subst) (t : Ty) : Prop := ∀ v ∈ t.vars, s.isBound v = false

instance (s : Subst) (t : Ty) : Decidable (s.Resolved t) :=
  inferInstanceAs (Decidable (∀ v ∈ t.vars, s.isBound v = false))

/-- A ranking of the bound variables under which stored types mention only smaller ones. -/
def Ranks (s : Subst) (rank : VarId → Nat) : Prop :=
  ∀ v t, s.lookup v = some t → ∀ w ∈ t.vars, s.isBound w = true → rank w < rank v

/-! ## Chains end -/

theorem Ranks.resolved {s : Subst} {rank : VarId → Nat} (h : s.Ranks rank) (depth : Nat) :
    ∀ v, (s.isBound v = true → rank v < depth) → s.Resolved (s.resolve depth v) := by
  induction depth with
  | zero =>
    intro v hv w hw
    obtain rfl : w = v := by simpa [resolve, Ty.vars] using hw
    cases hb : s.isBound w with
    | false => rfl
    | true => exact absurd (hv hb) (Nat.not_lt_zero _)
  | succ depth ih =>
    intro v hv w hw
    cases hlook : s.lookup v with
    | none =>
      obtain rfl : w = v := by simpa [resolve, hlook, Ty.vars] using hw
      exact not_isBound_iff.mpr hlook
    | some t =>
      simp only [resolve, hlook, Ty.mem_vars_subst] at hw
      obtain ⟨x, hx, hwx⟩ := hw
      refine ih x (fun hb => ?_) w hwx
      have hlt := h v t hlook x hx hb
      have hle := hv (isBound_iff.mpr ⟨t, hlook⟩)
      omega

/-- A ranking can be chosen with values below the number of bindings. -/
theorem Acyclic.exists_rank_lt_size {s : Subst} (h : s.Acyclic) :
    ∃ rank, s.Ranks rank ∧ ∀ v, s.isBound v = true → rank v < s.size := by
  obtain ⟨rank, hrank⟩ := h
  refine ⟨fun v => s.bindings.countP fun b => rank b.1 < rank v, ?_, ?_⟩
  · intro v t hv w hw hb
    have hlt := hrank v t hv w hw hb
    obtain ⟨b, hmem, rfl⟩ := exists_mem_of_isBound hb
    refine countP_lt_countP (fun a _ ha => ?_) ⟨b, hmem, by simpa using hlt, by simp⟩
    have ha : rank a.1 < rank b.1 := of_decide_eq_true ha
    exact decide_eq_true (Nat.lt_trans ha hlt)
  · intro v hb
    obtain ⟨b, hmem, rfl⟩ := exists_mem_of_isBound hb
    have hlt := countP_lt_countP (l := s.bindings) (p := fun a => rank a.1 < rank b.1)
      (q := fun _ => true) (fun _ _ _ => rfl) ⟨b, hmem, rfl, by simp⟩
    simpa [size] using hlt

/-- Following bindings to the depth of the size leaves no bound variable. -/
theorem Acyclic.resolved_resolve {s : Subst} (h : s.Acyclic) (v : VarId) :
    s.Resolved (s.resolve s.size v) := by
  obtain ⟨rank, hrank, hlt⟩ := h.exists_rank_lt_size
  exact hrank.resolved s.size v (hlt v)

theorem isBound_of_isEmpty {s : Subst} (h : s.bindings.isEmpty = true) (v : VarId) :
    s.isBound v = false := by
  cases s with
  | mk bs =>
    obtain rfl : bs = [] := List.isEmpty_iff.mp h
    rfl

/-- Applying an acyclic substitution leaves no bound variable. -/
theorem Acyclic.resolved_apply {s : Subst} (h : s.Acyclic) (t : Ty) : s.Resolved (s.apply t) := by
  unfold apply
  split
  · exact fun v _ => isBound_of_isEmpty ‹_› v
  · intro w hw
    obtain ⟨v, -, hwv⟩ := Ty.mem_vars_subst.mp hw
    exact h.resolved_resolve v w hwv

/-- A resolved type keeps its variables and its size under the substitution. -/
theorem Resolved.vars_apply {s : Subst} {t : Ty} (h : s.Resolved t) {w : VarId} :
    w ∈ (s.apply t).vars ↔ w ∈ t.vars := by
  unfold apply
  split
  · rfl
  · rw [subst_resolve_of_unbound h, Ty.mem_vars_subst]
    simp [Ty.vars]

theorem Resolved.size_apply {s : Subst} {t : Ty} (h : s.Resolved t) : (s.apply t).size = t.size := by
  unfold apply
  split
  · rfl
  · rw [subst_resolve_of_unbound h]
    exact Ty.size_subst_var (f := fun v => v) t

/-! ## One more binding -/

/-- Binding an unbound variable to a resolved type that does not mention it keeps chains finite. -/
theorem Acyclic.insert {s : Subst} {v : VarId} {t : Ty} (h : s.Acyclic) (hv : s.isBound v = false)
    (ht : s.Resolved t) (hocc : v ∉ t.vars) : (s.insert v t).Acyclic := by
  obtain ⟨rank, hrank⟩ := h
  refine ⟨fun w => if w = v then 0 else rank w + 1, fun x u hx w hw hb => ?_⟩
  by_cases hxv : x = v
  · subst hxv
    obtain rfl : t = u := Option.some.inj ((lookup_insert_self s x t).symm.trans hx)
    have hwx : w ≠ x := fun heq => hocc (heq ▸ hw)
    rw [isBound_insert] at hb
    simp [hwx, ht w hw] at hb
  · rw [lookup_insert_of_ne s t hxv] at hx
    by_cases hwv : w = v
    · simp [hwv, hxv]
    · rw [isBound_insert] at hb
      have hlt := hrank x u hx w hw (by simpa [hwv] using hb)
      simpa [hwv, hxv] using hlt

/-- Replaces one variable by a type, in which every function gets a return type. -/
def single (v : VarId) (t : Ty) (w : VarId) : Ty := if w = v then t.subst .var else .var w

theorem size_insert_of_unbound {s : Subst} {v : VarId} (hv : s.isBound v = false) (t : Ty) :
    (s.insert v t).size = s.size + 1 := by
  have hfilter : (s.bindings.filter fun b => b.1 ≠ v) = s.bindings := by
    refine List.filter_eq_self.mpr fun b hb => decide_eq_true fun heq => ?_
    have hnone : s.bindings.lookup v = none := not_isBound_iff.mp hv
    have hne := List.lookup_eq_none_iff.mp hnone b hb
    simp [heq] at hne
  rw [insert, size, hfilter, List.length_cons, size]

/-- One more binding acts after the others. -/
theorem Ranks.resolve_insert {s : Subst} {rank : VarId → Nat} (h : s.Ranks rank) {v : VarId} {t : Ty}
    (hv : s.isBound v = false) (ht : s.Resolved t) (hocc : v ∉ t.vars) (depth : Nat) :
    ∀ y, (s.isBound y = true → rank y < depth) →
      (s.insert v t).resolve (depth + 1) y = (s.resolve depth y).subst (single v t) := by
  induction depth with
  | zero =>
    intro y hy
    -- no bound variable has a rank below zero
    have hyb : s.isBound y = false := by
      cases hb : s.isBound y with
      | false => rfl
      | true => exact absurd (hy hb) (Nat.not_lt_zero _)
    by_cases hyv : y = v
    · subst hyv
      simp [resolve, lookup_insert_self, Ty.subst, single]
    · simp [resolve, lookup_insert_of_ne s t hyv, not_isBound_iff.mp hyb, Ty.subst, single, hyv]
  | succ depth ih =>
    intro y hy
    by_cases hyv : y = v
    · subst hyv
      rw [resolve, lookup_insert_self, resolve_of_unbound hv]
      -- the new type is resolved, also with the new binding
      have hres : (s.insert y t).Resolved t := by
        intro z hz
        have hzy : z ≠ y := fun heq => hocc (heq ▸ hz)
        rw [isBound_insert]
        simp [hzy, ht z hz]
      simp only [Ty.subst, single, if_true]
      exact subst_resolve_of_unbound hres (depth + 1)
    · rw [resolve, lookup_insert_of_ne s t hyv, resolve]
      cases hlook : s.lookup y with
      | none => simp [Ty.subst, single, hyv]
      | some u =>
        simp only [Ty.subst_subst]
        refine Ty.subst_congr fun z hz => ih z fun hb => ?_
        -- the variables of a bound type have lower ranks, so that fewer steps are enough for them
        have hlt := h y u hlook z hz hb
        have hle := hy (isBound_iff.mpr ⟨u, hlook⟩)
        omega

/-- Applying a substitution with one more binding is applying it and then replacing the variable. -/
theorem Acyclic.apply_insert {s : Subst} {v : VarId} {t : Ty} (h : s.Acyclic)
    (hv : s.isBound v = false) (ht : s.Resolved t) (hocc : v ∉ t.vars) (x : Ty) :
    (s.insert v t).apply x = (s.apply x).subst (single v t) := by
  obtain ⟨rank, hrank, hlt⟩ := h.exists_rank_lt_size
  have hinsert : (s.insert v t).apply x = x.subst fun y => (s.resolve s.size y).subst (single v t) := by
    have hne : (s.insert v t).bindings.isEmpty = false := rfl
    rw [apply, hne, size_insert_of_unbound hv, if_neg (by decide)]
    exact Ty.subst_congr fun y _ => hrank.resolve_insert hv ht hocc s.size y (hlt y)
  rw [hinsert, apply]
  split
  · rename_i hempty
    have hzero : s.size = 0 := by rw [size, List.isEmpty_iff.mp hempty]; rfl
    rw [hzero]
    rfl
  · rw [Ty.subst_subst]

/-- The variables of a type under one more binding: those it had, with the new variable replaced. -/
theorem Acyclic.mem_vars_apply_insert {s : Subst} {v : VarId} {t : Ty} (h : s.Acyclic)
    (hv : s.isBound v = false) (ht : s.Resolved t) (hocc : v ∉ t.vars) {x : Ty} {w : VarId} :
    w ∈ ((s.insert v t).apply x).vars ↔
      w ≠ v ∧ w ∈ (s.apply x).vars ∨ w ∈ t.vars ∧ v ∈ (s.apply x).vars := by
  rw [h.apply_insert hv ht hocc, Ty.mem_vars_subst]
  constructor
  · rintro ⟨y, hy, hw⟩
    by_cases hyv : y = v
    · subst hyv
      simp only [single, if_true, Ty.mem_vars_subst, Ty.vars, List.mem_singleton] at hw
      obtain ⟨z, hz, rfl⟩ := hw
      exact .inr ⟨hz, hy⟩
    · obtain rfl : w = y := by simpa [single, hyv, Ty.vars] using hw
      exact .inl ⟨hyv, hy⟩
  · rintro (⟨hwv, hw⟩ | ⟨hwt, hv⟩)
    · exact ⟨w, hw, by simp [single, hwv, Ty.vars]⟩
    · refine ⟨v, hv, ?_⟩
      simp only [single, if_true, Ty.mem_vars_subst]
      exact ⟨w, hwt, by simp [Ty.vars]⟩

/-! ## Deciding acyclicity -/

/-- Every bound variable is resolved after as many steps as there are bindings. -/
def isAcyclic (s : Subst) : Bool :=
  s.bindings.all fun b => decide (s.Resolved (s.resolve s.size b.1))

theorem Resolved.of_isAcyclic {s : Subst} (h : s.isAcyclic = true) (v : VarId) :
    s.Resolved (s.resolve s.size v) := by
  cases hb : s.isBound v with
  | false =>
    intro w hw
    rw [resolve_of_unbound hb] at hw
    obtain rfl : w = v := by simpa [Ty.vars] using hw
    exact hb
  | true =>
    obtain ⟨b, hmem, rfl⟩ := exists_mem_of_isBound hb
    exact of_decide_eq_true (List.all_eq_true.mp h b hmem)

/-- The first number up to `n` with the property, or `n` if there is none. -/
def firstUpTo (p : Nat → Bool) : Nat → Nat
  | 0 => 0
  | n + 1 => if p (firstUpTo p n) then firstUpTo p n else n + 1

theorem firstUpTo_spec {p : Nat → Bool} {k n : Nat} (hk : p k = true) (hle : k ≤ n) :
    p (firstUpTo p n) = true ∧ firstUpTo p n ≤ k := by
  induction n with
  | zero =>
    obtain rfl : k = 0 := by omega
    exact ⟨hk, Nat.le_refl _⟩
  | succ n ih =>
    rw [firstUpTo]
    by_cases hkn : k ≤ n
    · rw [if_pos (ih hkn).1]
      exact ih hkn
    · obtain rfl : k = n + 1 := by omega
      split
      · rename_i hp
        refine ⟨hp, Nat.le_trans ?_ (Nat.le_succ n)⟩
        have hbound : ∀ m, firstUpTo p m ≤ m := by
          intro m
          induction m with
          | zero => exact Nat.le_refl _
          | succ m ih => rw [firstUpTo]; split <;> omega
        exact hbound n
      · exact ⟨hk, Nat.le_refl _⟩

/-- The number of steps after which a variable is resolved. -/
def stepsToResolve (s : Subst) (v : VarId) : Nat :=
  firstUpTo (fun depth => decide (s.Resolved (s.resolve depth v))) s.size

theorem stepsToResolve_spec {s : Subst} {v : VarId} {depth : Nat}
    (h : s.Resolved (s.resolve depth v)) (hle : depth ≤ s.size) :
    s.Resolved (s.resolve (s.stepsToResolve v) v) ∧ s.stepsToResolve v ≤ depth := by
  obtain ⟨hres, hfirst⟩ := firstUpTo_spec
    (p := fun depth => decide (s.Resolved (s.resolve depth v))) (decide_eq_true h) hle
  exact ⟨of_decide_eq_true hres, hfirst⟩

theorem isAcyclic_iff {s : Subst} : s.isAcyclic = true ↔ s.Acyclic := by
  constructor
  · intro h
    refine ⟨s.stepsToResolve, fun v t hv w hw hb => ?_⟩
    obtain ⟨hres, hle⟩ := stepsToResolve_spec (Resolved.of_isAcyclic h v) (Nat.le_refl _)
    generalize s.stepsToResolve v = steps at hres hle ⊢
    cases steps with
    | zero =>
      have hvb := hres v (by simp [resolve, Ty.vars])
      rw [isBound_iff.mpr ⟨t, hv⟩] at hvb
      exact absurd hvb (by decide)
    | succ depth =>
      refine Nat.lt_succ_of_le (stepsToResolve_spec (fun x hx => hres x ?_) (by omega)).2
      rw [resolve, hv]
      exact Ty.mem_vars_subst.mpr ⟨w, hw, hx⟩
  · intro h
    exact List.all_eq_true.mpr fun b _ => decide_eq_true (h.resolved_resolve b.1)

instance (s : Subst) : Decidable s.Acyclic := decidable_of_iff _ isAcyclic_iff

theorem acyclic_empty : empty.Acyclic := ⟨fun _ => 0, fun _ _ h => by simp at h⟩

end Generics.Subst
