import Generics.Proofs.Subst.Matching

/-!
# Matching decides instances

A type is an *instance* of a pattern when some assignment of types to the pattern's variables makes
the type of the pattern, up to regions and with an absent return type read as unit. A match that
succeeds is such an assignment. Here it is shown that a match fails only if there is none.

The pattern is resolved against the bindings made so far at every node. After the first binding of a
repeated variable, parts of the target therefore stand on the side of the pattern, and their
variables have to stay rigid. The invariant is that the bindings made so far are part of one
assignment, and that this assignment leaves all variables alone but those of the pattern. It gives
the resolved pattern the value of the target, whichever side its variables come from.

## Main results

* `matchTy_of_split`: types of the same shape are matched part by part;
* `matchVar_complete`, `matchTy_complete`: a match goes along with any assignment that makes the
  target of the pattern;
* `matchPattern_iff_instance`: a match succeeds exactly on instances, binds variables of the pattern
  only and makes the target of the pattern.
-/

namespace Generics

namespace Ty

/-- Only a variable is left as a variable. -/
theorem eq_var_of_erase_eq_var {t : Ty} {v : VarId} (h : t.erase = .var v) : t = .var v := by
  cases t with
  | var id => exact h
  | fn params ret => cases ret <;> cases h
  | _ => cases h

/-- Only a variable can have a variable as its value. -/
theorem exists_eq_var_of_valueAt_eq_var {σ : VarId → Ty} {t : Ty} {v : VarId}
    (h : t.valueAt σ = .var v) : ∃ w, t = .var w := by
  cases t with
  | var id => exact ⟨id, rfl⟩
  | fn params ret => cases ret <;> cases h
  | _ => cases h

end Ty

namespace Subst

/-! ## Assignments to some variables -/

/-- The assignment leaves all variables alone but the given ones. -/
def Rigid (vars : List VarId) (σ : VarId → Ty) : Prop := ∀ v, v ∉ vars → σ v = .var v

/-- The assignment on the given variables; others stand for themselves. -/
def restrict (vars : List VarId) (σ : VarId → Ty) (v : VarId) : Ty :=
  if v ∈ vars then σ v else .var v

theorem rigid_restrict (vars : List VarId) (σ : VarId → Ty) : Rigid vars (restrict vars σ) :=
  fun _ hv => if_neg hv

/-- A type with the given variables only has the same value under the restricted assignment. -/
theorem valueAt_restrict {vars : List VarId} {p : Ty} (h : ∀ v ∈ p.vars, v ∈ vars)
    (σ : VarId → Ty) : p.valueAt (restrict vars σ) = p.valueAt σ :=
  Ty.valueAt_congr fun v hv => if_pos (h v hv)

/-- A type without the given variables keeps them all. -/
theorem Rigid.valueAt_eq_erase {vars : List VarId} {σ : VarId → Ty} (h : Rigid vars σ) {t : Ty}
    (hapart : ∀ v ∈ t.vars, v ∉ vars) : t.valueAt σ = t.erase := by
  rw [← Ty.valueAt_self]
  exact Ty.valueAt_congr fun v hv => h v (hapart v hv)

/-! ## Types of the same shape -/

/-- Two types of the same shape are matched part by part. -/
theorem matchTy_of_split {vars : List VarId} {s : Subst} {p t : Ty} {pairs : List (Ty × Ty)}
    (h : Ty.confront (s.apply p) t = .split pairs) :
    matchTy vars s p t = matchEach vars s (pairs.map Prod.fst) (pairs.map Prod.snd) := by
  rw [matchTy.eq_def]
  generalize s.apply p = a at h ⊢
  revert h
  fun_cases Ty.confront a t with
  | case3 q =>
    rintro ⟨⟩
    simp [matchEach]
  | case5 n rs as m ss bs hshape =>
    obtain ⟨rfl, hlen⟩ := hshape
    rintro ⟨⟩
    rw [List.map_fst_zip (Nat.le_of_eq hlen), List.map_snd_zip (Nat.le_of_eq hlen.symm)]
    exact if_pos ⟨rfl, hlen⟩
  | case7 as bs hlen =>
    rintro ⟨⟩
    rw [List.map_fst_zip (Nat.le_of_eq hlen), List.map_snd_zip (Nat.le_of_eq hlen.symm)]
    exact if_pos hlen
  | case9 | case11 | case13 =>
    rintro ⟨⟩
    exact (if_pos rfl).trans (matchEach_singleton vars s _ _).symm
  | case15 as ra bs rb hlen =>
    rintro ⟨⟩
    rw [List.map_append, List.map_append, List.map_fst_zip (Nat.le_of_eq hlen),
      List.map_snd_zip (Nat.le_of_eq hlen.symm)]
    refine Eq.trans ?_ (matchEach_concat hlen (Ty.retOrUnit ra) (Ty.retOrUnit rb)).symm
    -- a target without a return type is matched as if it returned the unit type
    cases rb with
    | none => simp [hlen, matchUnit_eq, Ty.retOrUnit]
    | some r => simp [hlen, Ty.retOrUnit]
  | _ => rintro ⟨⟩

/-! ## A match goes along with an assignment -/

/-- Types with the values of the targets are matched with them one after the other. -/
theorem matchEach_complete {vars : List VarId} {σ : VarId → Ty} {ps ts : List Ty} {s : Subst}
    (hmatch : ∀ t ∈ ts, ∀ {s : Subst} {p : Ty}, s.Acyclic → s.BindsOnly vars → s.Solves σ →
      p.valueAt σ = t.valueAt σ → ∃ s', matchTy vars s p t = (s', true) ∧ s'.Solves σ)
    (hacyclic : s.Acyclic) (hbinds : s.BindsOnly vars) (hs : s.Solves σ)
    (hapart : ∀ t ∈ ts, ∀ v ∈ t.vars, v ∉ vars)
    (hvalues : ps.map (Ty.valueAt σ) = ts.map (Ty.valueAt σ)) :
    ∃ s', matchEach vars s ps ts = (s', true) ∧ s'.Solves σ := by
  induction ts generalizing s ps with
  | nil =>
    obtain rfl := List.map_eq_nil_iff.mp hvalues
    exact ⟨s, rfl, hs⟩
  | cons t ts ih =>
    obtain ⟨p, ps, rfl, hvalue, hvalues⟩ := List.map_eq_cons_iff.mp hvalues
    obtain ⟨ht, hts⟩ := List.forall_mem_cons.mp hmatch
    obtain ⟨hapart, haparts⟩ := List.forall_mem_cons.mp hapart
    obtain ⟨between, hfirst, hbetween⟩ := ht hacyclic hbinds hs hvalue
    -- soundness keeps what the next match relies on
    obtain ⟨hgrows, hbinds', -⟩ := matchTy_spec t hacyclic hbinds hapart hfirst
    obtain ⟨s', hrest, hs'⟩ := ih hts (hgrows.acyclic hacyclic) hbinds' hbetween haparts hvalues
    refine ⟨s', ?_, hs'⟩
    rw [matchEach, hfirst]
    exact hrest

section

variable {vars : List VarId} {σ : VarId → Ty} (hσ : Rigid vars σ)
include hσ

/-- A variable that has the value of the target is bound to it, or is the target. -/
theorem matchVar_complete {s : Subst} {v : VarId} {t : Ty} (hv : s.isBound v = false)
    (hs : s.Solves σ) (hapart : ∀ w ∈ t.vars, w ∉ vars)
    (hvalue : (Ty.var v).valueAt σ = t.valueAt σ) :
    ∃ s', matchVar vars s v t = (s', true) ∧ s'.Solves σ := by
  by_cases hmem : v ∈ vars
  · -- a variable of the pattern does not occur in the target
    have hocc : v ∉ t.vars := fun hin => hapart v hin hmem
    have hne : t ≠ .var v := by
      rintro rfl
      exact hocc (by simp [Ty.vars])
    refine ⟨s.insert v t, ?_, (solves_insert_iff hv).mpr ⟨hs, hvalue⟩⟩
    rw [matchVar, if_neg hne, if_pos (by simpa [Ty.occurs] using ⟨hmem, hocc⟩)]
  · -- any other variable stands for itself, so it is the target
    have herase : t.erase = .var v := by
      rw [← hσ.valueAt_eq_erase hapart, ← hvalue, Ty.valueAt_var, hσ v hmem, Ty.erase]
    exact ⟨s, if_pos (Ty.eq_var_of_erase_eq_var herase), hs⟩

/-- A pattern that has the value of the target, after the bindings made so far, matches it, and the
bindings made then are still part of the assignment. -/
theorem matchTy_complete (t : Ty) {s : Subst} {p : Ty} (hacyclic : s.Acyclic)
    (hbinds : s.BindsOnly vars) (hs : s.Solves σ) (hapart : ∀ v ∈ t.vars, v ∉ vars)
    (hvalue : p.valueAt σ = t.valueAt σ) :
    ∃ s', matchTy vars s p t = (s', true) ∧ s'.Solves σ := by
  -- the components are reached through `parts`, hence the induction on the size
  induction hn : t.size using Nat.strongRecOn generalizing t s p with
  | _ n ih =>
    rw [← hs.valueAt_apply] at hvalue
    by_cases hvar : ∃ v, s.apply p = .var v
    · obtain ⟨v, hp⟩ := hvar
      have hv : s.isBound v = false := hacyclic.resolved_apply p v (by simp [hp, Ty.vars])
      rw [hp] at hvalue
      rw [matchTy.eq_def, hp]
      exact matchVar_complete hσ hv hs hapart hvalue
    · have hspec := Ty.confront_spec σ (s.apply p) t
      cases hconfront : Ty.confront (s.apply p) t with
      | bind v u =>
        -- the target would be a variable, which only a variable can have as its value
        rw [hconfront] at hspec
        refine absurd ?_ hvar
        rcases hspec with ⟨hp, -⟩ | ⟨ht, -⟩
        · exact ⟨v, hp⟩
        · rw [hσ.valueAt_eq_erase hapart, ht] at hvalue
          exact Ty.exists_eq_var_of_valueAt_eq_var hvalue
      | split pairs =>
        rw [hconfront] at hspec
        rw [matchTy_of_split hconfront]
        have hparts := hspec.mp hvalue
        obtain ⟨hpairs, hlen⟩ := Ty.confront_split hconfront
        have htargets : pairs.map Prod.snd = t.parts := by
          rw [hpairs, List.map_snd_zip (Nat.le_of_eq hlen.symm)]
        have haparts : ∀ u ∈ t.parts, ∀ v ∈ u.vars, v ∉ vars :=
          fun u hu v hv => hapart v (Ty.mem_vars_of_mem_parts hu hv)
        rw [htargets]
        refine matchEach_complete ?_ hacyclic hbinds hs haparts ?_
        · intro u hu s p hacyclic hbinds hs hvalue
          exact ih u.size (hn ▸ Ty.size_lt_of_mem_parts hu) u hacyclic hbinds hs (haparts u hu)
            hvalue rfl
        · rw [← htargets, List.map_map, List.map_map]
          exact List.map_congr_left hparts
      | clash context =>
        rw [hconfront] at hspec
        exact absurd hvalue hspec

end

/-! ## Instances -/

/-- A pattern matches a target without common variables exactly if some assignment of types to its
variables makes the target of it, up to regions and with an absent return type read as unit. The
match then binds variables of the pattern only, and makes the target of the pattern. -/
theorem matchPattern_iff_instance {p t : Ty} (hapart : ∀ v ∈ p.vars, v ∉ t.vars) :
    ((empty.matchPattern p t).2 = true ↔ ∃ σ : VarId → Ty, (p.subst σ).erase = t.erase) ∧
      ((empty.matchPattern p t).2 = true →
        (∀ v, (empty.matchPattern p t).1.isBound v = true → v ∈ p.vars) ∧
          ((empty.matchPattern p t).1.apply p).erase = t.erase) := by
  have hrigid : ∀ v ∈ t.vars, v ∉ p.vars := fun v hv hp => hapart v hp hv
  have hpair (h : (empty.matchPattern p t).2 = true) :
      empty.matchPattern p t = ((empty.matchPattern p t).1, true) := Prod.ext rfl h
  refine ⟨⟨fun h => ?_, ?_⟩, fun h => (matchPattern_spec hrigid (hpair h)).2⟩
  · exact exists_valueAt_of_matchPattern hrigid (hpair h)
  · rintro ⟨σ, hσ⟩
    -- only the values of the pattern's variables count; the target's variables stand for themselves
    have hrestrict := rigid_restrict p.vars σ
    have hvalue : p.valueAt (restrict p.vars σ) = t.valueAt (restrict p.vars σ) := by
      rw [valueAt_restrict (fun _ hv => hv), hrestrict.valueAt_eq_erase hrigid]
      exact hσ
    have hempty : empty.Solves (restrict p.vars σ) := by
      intro v u hv
      simp at hv
    obtain ⟨s, hmatch, -⟩ := matchTy_complete hrestrict t acyclic_empty (bindsOnly_empty p.vars)
      hempty hrigid hvalue
    exact congrArg Prod.snd hmatch

/-- The function from `&?0` to `?0` is matched with the one from `&'a Vec<?7>` to `Vec<?7>`. The
variable `?7` of the target stands on the side of the pattern when the return types are compared. As
it is rigid, `(?7, u8)` is no instance of `(?0, ?0)`. -/
theorem matchPattern_iff_instance_of_repeated :
    let list : Ty := .named "Vec" [] [.var 7]
    let p : Ty := .fn [.ref .elided false (.var 0)] (some (.var 0))
    let t : Ty := .fn [.ref ⟨"'a"⟩ false list] (some list)
    ((∀ v ∈ p.vars, v ∉ t.vars) ∧ (empty.matchPattern p t).2 = true ∧
        (∃ σ : VarId → Ty, (p.subst σ).erase = t.erase) ∧
        (∀ v, (empty.matchPattern p t).1.isBound v = true → v ∈ p.vars) ∧
        ((empty.matchPattern p t).1.apply p).erase = t.erase) ∧
      ¬ ∃ σ : VarId → Ty, ((Ty.tuple [.var 0, .var 0]).subst σ).erase =
        (Ty.tuple [.var 7, .prim "u8"]).erase := by
  intro list p t
  have hmatch : (empty.matchPattern p t).2 = true := by decide
  have hfails : (empty.matchPattern (.tuple [.var 0, .var 0]) (.tuple [.var 7, .prim "u8"])).2
      = false := by decide
  have hapart : ∀ v ∈ p.vars, v ∉ t.vars := by simp [list, p, t, Ty.vars]
  obtain ⟨hiff, hbound⟩ := matchPattern_iff_instance hapart
  refine ⟨⟨hapart, hmatch, hiff.mp hmatch, hbound hmatch⟩, fun hinstance => ?_⟩
  rw [(matchPattern_iff_instance (by simp [Ty.vars])).1.mpr hinstance] at hfails
  cases hfails

end Subst

end Generics
