import Generics.Proofs.Subst.Solution
import Generics.Subst.Match

/-!
# What a match shows

A match binds variables of the pattern to parts of the target. When pattern and target have no
variable in common, a match that succeeds is an assignment under which the pattern has the value of
the target. As in unification, regions play no part in this.

The bindings that a match adds are of the same kind as those of unification: an unbound variable
gets a type that is resolved and does not mention it. So the theory of solutions applies.

## Main results

* `matchVar_spec`, `matchTy_spec`: what a successful match adds to the bindings, and that all
  solutions make pattern and target equal;
* `matchPattern_spec`: a match binds variables of the pattern only and makes the target of it;
* `exists_valueAt_of_matchPattern`: a pattern that matches has the target as an instance.
-/

namespace Generics.Subst

/-- All bound variables are among the given ones. -/
def BindsOnly (s : Subst) (vars : List VarId) : Prop := ∀ v, s.isBound v = true → v ∈ vars

theorem bindsOnly_empty (vars : List VarId) : empty.BindsOnly vars := by
  intro v hv
  simp at hv

/-- A type without any of the variables has no bound variable. -/
theorem BindsOnly.resolved {s : Subst} {vars : List VarId} (h : s.BindsOnly vars) {t : Ty}
    (hapart : ∀ v ∈ t.vars, v ∉ vars) : s.Resolved t := by
  intro v hv
  cases hbound : s.isBound v with
  | false => rfl
  | true => exact absurd (h v hbound) (hapart v hv)

/-- What a successful match does: it adds bindings of the given variables, and whatever solves these
gives the two sides the same values. -/
def Matched (vars : List VarId) (s s' : Subst) (patterns targets : List Ty) : Prop :=
  s.Grows s' ∧ s'.BindsOnly vars ∧
    ∀ σ, s'.Solves σ → patterns.map (Ty.valueAt σ) = targets.map (Ty.valueAt σ)

/-- One match after another. -/
theorem Matched.cons {vars : List VarId} {s s' s'' : Subst} {p t : Ty} {ps ts : List Ty}
    (h : Matched vars s s' [p] [t]) (h' : Matched vars s' s'' ps ts) :
    Matched vars s s'' (p :: ps) (t :: ts) := by
  obtain ⟨hgrows, -, hvalue⟩ := h
  obtain ⟨hgrows', hbinds, hvalues⟩ := h'
  refine ⟨hgrows.trans hgrows', hbinds, fun σ hσ => ?_⟩
  have hhead := hvalue σ (hgrows'.solves hσ)
  simp only [List.map_cons, List.map_nil, List.cons.injEq, and_true] at hhead
  rw [List.map_cons, List.map_cons, hhead, hvalues σ hσ]

/-- A match of the resolved pattern is a match of the pattern, and components that match make up a
type that matches. -/
theorem Matched.of_parts {vars : List VarId} {s s' : Subst} {p t : Ty} {ps ts : List Ty}
    (h : Matched vars s s' ps ts)
    (hparts : ∀ σ, ps.map (Ty.valueAt σ) = ts.map (Ty.valueAt σ) →
      (s.apply p).valueAt σ = t.valueAt σ) : Matched vars s s' [p] [t] := by
  obtain ⟨hgrows, hbinds, hvalues⟩ := h
  refine ⟨hgrows, hbinds, fun σ hσ => ?_⟩
  have hvalue := hparts σ (hvalues σ hσ)
  rw [(hgrows.solves hσ).valueAt_apply] at hvalue
  rw [List.map_singleton, List.map_singleton, hvalue]

/-- Matching an unbound variable. -/
theorem matchVar_spec {vars : List VarId} {s s' : Subst} {v : VarId} {t : Ty}
    (hbinds : s.BindsOnly vars) (hapart : ∀ w ∈ t.vars, w ∉ vars) (hv : s.isBound v = false)
    (h : matchVar vars s v t = (s', true)) : Matched vars s s' [.var v] [t] := by
  unfold matchVar at h
  split at h
  · -- the variable already is the target
    rename_i hsame
    obtain rfl := congrArg Prod.fst h
    exact ⟨.refl s, hbinds, fun σ _ => by rw [hsame]⟩
  split at h
  · -- the variable may be bound, and the target does not mention it
    rename_i hbind
    obtain rfl := congrArg Prod.fst h
    obtain ⟨hmem, hocc⟩ : v ∈ vars ∧ v ∉ t.vars := by
      simpa [Ty.occurs] using hbind
    refine ⟨.insert hv (hbinds.resolved hapart) hocc (.refl _), fun w hw => ?_, fun σ hσ => ?_⟩
    · rw [isBound_insert] at hw
      simp only [Bool.or_eq_true, decide_eq_true_eq] at hw
      rcases hw with rfl | hw
      · exact hmem
      · exact hbinds w hw
    · rw [List.map_singleton, List.map_singleton, ((solves_insert_iff hv).mp hσ).2]
  · cases h

/-- Matching the target does what a successful match does, whatever the pattern. -/
def MatchSound (t : Ty) : Prop :=
  ∀ {vars : List VarId} {s s' : Subst} {p : Ty}, s.Acyclic → s.BindsOnly vars →
    (∀ v ∈ t.vars, v ∉ vars) → matchTy vars s p t = (s', true) → Matched vars s s' [p] [t]

/-- Matching in order, up to the first failure. -/
theorem matchEach_spec {ts : List Ty} (hts : ∀ t ∈ ts, MatchSound t) {vars : List VarId}
    {s s' : Subst} {ps : List Ty} (hs : s.Acyclic) (hbinds : s.BindsOnly vars)
    (hapart : ∀ t ∈ ts, ∀ v ∈ t.vars, v ∉ vars) (hlen : ps.length = ts.length)
    (h : matchEach vars s ps ts = (s', true)) : Matched vars s s' ps ts := by
  induction ts generalizing s ps with
  | nil =>
    obtain rfl := List.length_eq_zero_iff.mp hlen
    obtain rfl := congrArg Prod.fst h
    exact ⟨.refl s, hbinds, fun σ _ => rfl⟩
  | cons t ts ih =>
    cases ps with
    | nil => cases hlen
    | cons p ps =>
      obtain ⟨ht, hts⟩ := List.forall_mem_cons.mp hts
      obtain ⟨hapart, haparts⟩ := List.forall_mem_cons.mp hapart
      rw [matchEach] at h
      generalize hfirst : matchTy vars s p t = first at h
      obtain ⟨between, matched⟩ := first
      cases matched with
      | false => cases h
      | true =>
        -- the bindings of the first match are there when the rest is matched
        have hhead := ht hs hbinds hapart hfirst
        exact hhead.cons
          (ih hts (hhead.1.acyclic hs) hhead.2.1 haparts (Nat.succ.inj hlen) h)

/-! ## The components of a match -/

/-- Matching against the unit type is no special case. -/
theorem matchUnit_eq (vars : List VarId) (s : Subst) (p : Ty) :
    matchUnit vars s p = matchTy vars s p Ty.unit := by
  rw [matchUnit, matchTy.eq_def, Ty.unit]
  cases s.apply p with
  | tuple elems => cases elems <;> rfl
  | _ => rfl

/-- A single type is matched by itself. -/
theorem matchEach_singleton (vars : List VarId) (s : Subst) (p t : Ty) :
    matchEach vars s [p] [t] = matchTy vars s p t := by
  rw [matchEach]
  generalize matchTy vars s p t = last
  obtain ⟨s', matched⟩ := last
  cases matched <;> rfl

/-- The last of several types is matched after all others. -/
theorem matchEach_concat {vars : List VarId} {s : Subst} {ps ts : List Ty}
    (hlen : ps.length = ts.length) (p t : Ty) :
    matchEach vars s (ps ++ [p]) (ts ++ [t]) =
      if (matchEach vars s ps ts).2 then matchTy vars (matchEach vars s ps ts).1 p t
      else ((matchEach vars s ps ts).1, false) := by
  induction ts generalizing s ps with
  | nil =>
    obtain rfl := List.length_eq_zero_iff.mp hlen
    exact matchEach_singleton vars s p t
  | cons u ts ih =>
    cases ps with
    | nil => cases hlen
    | cons q ps =>
      rw [List.cons_append, List.cons_append, matchEach, matchEach]
      generalize matchTy vars s q u = first
      obtain ⟨between, matched⟩ := first
      cases matched with
      | false => rfl
      | true => exact ih (Nat.succ.inj hlen)

/-- Components that match, and have the values of the target's components only if the whole pattern
has the value of the target. -/
def PartsMatch (vars : List VarId) (s s' : Subst) (p t : Ty) : Prop :=
  ∃ ps, ps.length = t.parts.length ∧ matchEach vars s ps t.parts = (s', true) ∧
    ∀ σ, ps.map (Ty.valueAt σ) = t.parts.map (Ty.valueAt σ) → p.valueAt σ = t.valueAt σ

/-- The return type of a function is its last component. -/
theorem partsMatch_fn {vars : List VarId} {s between s' : Subst} {ps ts : List Ty}
    {ret ret' : Option Ty} (hlen : ps.length = ts.length)
    (hparams : matchEach vars s ps ts = (between, true))
    (hret : matchTy vars between (Ty.retOrUnit ret) (Ty.retOrUnit ret') = (s', true)) :
    PartsMatch vars s s' (.fn ps ret) (.fn ts ret') := by
  refine ⟨ps ++ [Ty.retOrUnit ret], ?_, ?_, fun σ hparts => ?_⟩
  · simp [Ty.parts, hlen]
  · rw [Ty.parts, matchEach_concat hlen, hparams]
    exact hret
  · rw [Ty.parts, List.map_append, List.map_append] at hparts
    obtain ⟨hps, hlast⟩ := List.append_inj hparts (by simp [hlen])
    rw [Ty.valueAt_fn, Ty.valueAt_fn, hps, List.head_eq_of_cons_eq hlast]

/-- A match that succeeds is one of a variable, or one of all components of two types of the same
shape. -/
theorem matchTy_cases {vars : List VarId} {s s' : Subst} {p t : Ty}
    (h : matchTy vars s p t = (s', true)) :
    (∃ v, s.apply p = .var v ∧ matchVar vars s v t = (s', true)) ∨
      PartsMatch vars s s' (s.apply p) t := by
  rw [matchTy.eq_def] at h
  split at h
  case h_1 v hp => exact .inl ⟨v, hp, h⟩
  case h_2 a b hp =>
    simp only [Prod.mk.injEq, decide_eq_true_eq] at h
    obtain ⟨rfl, rfl⟩ := h
    exact .inr ⟨[], rfl, rfl, fun σ _ => by rw [hp]⟩
  case h_3 n rs ps m rs' ts hp =>
    split at h
    · rename_i hshape
      obtain ⟨rfl, hlen⟩ := hshape
      refine .inr ⟨ps, hlen, h, fun σ hparts => ?_⟩
      rw [hp, Ty.valueAt_named, Ty.valueAt_named, hparts]
      rfl
    · cases h
  case h_4 ps ts hp =>
    split at h
    · rename_i hlen
      refine .inr ⟨ps, hlen, h, fun σ hparts => ?_⟩
      rw [hp, Ty.valueAt_tuple, Ty.valueAt_tuple, hparts]
      rfl
    · cases h
  case h_5 a n b m hp =>
    split at h
    · rename_i hsize
      refine .inr ⟨[a], rfl, (matchEach_singleton ..).trans h, fun σ hparts => ?_⟩
      rw [hp, Ty.valueAt_array, Ty.valueAt_array, hsize, List.head_eq_of_cons_eq hparts]
    · cases h
  case h_6 r isMut a r' isMut' b hp =>
    split at h
    · rename_i hmut
      refine .inr ⟨[a], rfl, (matchEach_singleton ..).trans h, fun σ hparts => ?_⟩
      rw [hp, Ty.valueAt_ref, Ty.valueAt_ref, hmut, List.head_eq_of_cons_eq hparts]
    · cases h
  case h_7 isMut a isMut' b hp =>
    split at h
    · rename_i hmut
      refine .inr ⟨[a], rfl, (matchEach_singleton ..).trans h, fun σ hparts => ?_⟩
      rw [hp, Ty.valueAt_ptr, Ty.valueAt_ptr, hmut, List.head_eq_of_cons_eq hparts]
    · cases h
  case h_8 ps ret ts hp =>
    -- a target without a return type is matched as if it returned the unit type
    split at h
    · rename_i hlen
      generalize hparams : matchEach vars s ps ts = first at h
      obtain ⟨between, matched⟩ := first
      cases matched with
      | false => cases h
      | true => exact .inr (hp ▸ partsMatch_fn hlen hparams (matchUnit_eq vars between _ ▸ h))
    · cases h
  case h_9 ps ret ts ret' hp =>
    split at h
    · rename_i hlen
      generalize hparams : matchEach vars s ps ts = first at h
      obtain ⟨between, matched⟩ := first
      cases matched with
      | false => cases h
      | true => exact .inr (hp ▸ partsMatch_fn hlen hparams h)
    · cases h
  case h_10 => cases h

/-! ## What a match does -/

/-- Matching against any target does what a successful match does. -/
theorem matchTy_spec (t : Ty) : MatchSound t := by
  -- the components are reached through `parts`, hence the induction on the size
  induction hn : t.size using Nat.strongRecOn generalizing t with
  | _ n ih =>
    intro vars s s' p hs hbinds hapart h
    rcases matchTy_cases h with ⟨v, hp, hvar⟩ | ⟨ps, hlen, hparts, hvalue⟩
    · -- what is left of the pattern under the substitution has no bound variables
      have hv : s.isBound v = false := hs.resolved_apply p v (by simp [hp, Ty.vars])
      refine (matchVar_spec hbinds hapart hv hvar).of_parts fun σ hσ => ?_
      rw [hp, List.head_eq_of_cons_eq hσ]
    · refine (matchEach_spec (fun u hu => ?_) hs hbinds (fun u hu v hv => ?_) hlen hparts).of_parts
        hvalue
      · exact ih u.size (hn ▸ Ty.size_lt_of_mem_parts hu) u rfl
      · exact hapart v (Ty.mem_vars_iff_parts.mpr (.inr ⟨u, hu, hv⟩))

/-- A match of a pattern and a target without common variables binds variables of the pattern only,
and makes the target of the pattern. -/
theorem matchPattern_spec {p t : Ty} {s : Subst} (hapart : ∀ v ∈ t.vars, v ∉ p.vars)
    (h : empty.matchPattern p t = (s, true)) :
    s.Acyclic ∧ s.BindsOnly p.vars ∧ (s.apply p).erase = t.erase := by
  obtain ⟨hgrows, hbinds, hvalue⟩ :=
    matchTy_spec t acyclic_empty (bindsOnly_empty p.vars) hapart h
  have hs := hgrows.acyclic acyclic_empty
  refine ⟨hs, hbinds, ?_⟩
  -- only variables of the pattern are bound, so the target is left as it is
  have hresolved := hbinds.resolved hapart
  have himage : t.valueAt s.image = t.valueAt .var := by
    refine Ty.valueAt_congr fun v hv => ?_
    rw [image, not_isBound_iff.mp (hresolved v hv)]
  rw [← hs.valueAt_image, List.head_eq_of_cons_eq (hvalue s.image hs.solves_image), himage,
    Ty.valueAt_self]

/-- A pattern that matches a target without common variables has the target as an instance. -/
theorem exists_valueAt_of_matchPattern {p t : Ty} {s : Subst} (hapart : ∀ v ∈ t.vars, v ∉ p.vars)
    (h : empty.matchPattern p t = (s, true)) : ∃ σ, p.valueAt σ = t.erase := by
  obtain ⟨hs, -, hvalue⟩ := matchPattern_spec hapart h
  exact ⟨s.image, (hs.valueAt_image p).trans hvalue⟩

end Generics.Subst
