import Generics.Proofs.Subst.Frame
import Mathlib.Order.RelClasses

/-!
# Unification as calls that end

`Subst.unify` works through a list of pairs. The same work can be written as functions that call each
other: to unify a pair is to bind a variable or to unify components one after the other, each under
the bindings that the ones before it left, and to bind a bound variable is to unify its stored type
with the new one. `Call` is a call of these functions with the substitution it is made on, `Run` says
what a call returns and how many calls that takes in all, and `Calls` says which calls a call makes.

No size of types decreases along the calls, because bindings replace variables by larger types. What
decreases is the number of variables that are open, then the size of the resolved types, then the
place of the call in the round from a loop over a pair to its binding. That a pair leaves fewer open
variables if it binds any is the frame of `unify`: only open variables are bound.

## Main results

* `Run.returns`: a call that ends returns what the work on its pairs comes to;
* `Calls.decreases` and `wellFounded_calls`: on acyclic substitutions no chain of calls is infinite;
* `exists_run`: every call on an acyclic substitution ends;
* `Reachable.unify_bind_end`: so do unifying and binding, on every substitution that calls can make.
-/

namespace Generics.Subst

/-! ## Calls -/

/-- A call, with the substitution that it is made on. `goal` is the pair that a mismatch reports. -/
inductive Call where
  /-- Make the two types of a pair equal. -/
  | unify (goal : Ty × Ty) (s : Subst) (p : Ty × Ty)
  /-- Make the types of each pair equal, one pair after the other. -/
  | each (goal : Ty × Ty) (s : Subst) (pairs : List (Ty × Ty))
  /-- Make a variable stand for a type. -/
  | bind (s : Subst) (v : VarId) (t : Ty)

namespace Call

/-- The substitution that a call is made on. -/
def store : Call → Subst
  | unify _ s _ => s
  | each _ s _ => s
  | bind s _ _ => s

/-- The pairs that a call is to make equal. -/
def work : Call → List (Ty × Ty)
  | unify _ _ p => [p]
  | each _ _ pairs => pairs
  | bind _ v t => [(.var v, t)]

end Call

/-- A call ends with the given substitution and verdict after the given number of calls, itself
included; the loop over pairs is not counted. -/
inductive Run : Call → Nat → Subst × Except Error Unit → Prop
  | bind {goal : Ty × Ty} {s : Subst} {p : Ty × Ty} {v : VarId} {t : Ty} {n : Nat}
      {out : Subst × Except Error Unit}
      (h : Ty.confront (s.apply p.1) (s.apply p.2) = .bind v t) (hrun : Run (.bind s v t) n out) :
      Run (.unify goal s p) (n + 1) out
  | split {goal : Ty × Ty} {s : Subst} {p : Ty × Ty} {pairs : List (Ty × Ty)} {n : Nat}
      {out : Subst × Except Error Unit}
      (h : Ty.confront (s.apply p.1) (s.apply p.2) = .split pairs)
      (hrun : Run (.each goal s pairs) n out) : Run (.unify goal s p) (n + 1) out
  | clash {goal : Ty × Ty} {s : Subst} {p : Ty × Ty} {context : String}
      (h : Ty.confront (s.apply p.1) (s.apply p.2) = .clash context) :
      Run (.unify goal s p) 1
        (s, .error (.typeMismatch (s.apply goal.1).render (s.apply goal.2).render context))
  | none {goal : Ty × Ty} {s : Subst} : Run (.each goal s []) 0 (s, .ok ())
  | next {goal : Ty × Ty} {s s' : Subst} {p : Ty × Ty} {rest : List (Ty × Ty)} {n m : Nat}
      {out : Subst × Except Error Unit} (hfirst : Run (.unify goal s p) n (s', .ok ()))
      (hrest : Run (.each goal s' rest) m out) : Run (.each goal s (p :: rest)) (n + m) out
  | stop {goal : Ty × Ty} {s s' : Subst} {p : Ty × Ty} {rest : List (Ty × Ty)} {n : Nat} {e : Error}
      (hfirst : Run (.unify goal s p) n (s', .error e)) :
      Run (.each goal s (p :: rest)) n (s', .error e)
  | bound {s : Subst} {v : VarId} {stored t : Ty} {n : Nat} {out : Subst × Except Error Unit}
      (h : s.lookup v = some stored) (hrun : Run (.unify (stored, t) s (stored, t)) n out) :
      Run (.bind s v t) (n + 1) out
  | self {s : Subst} {v : VarId} {t : Ty} (h : s.lookup v = .none) (hself : s.apply t = .var v) :
      Run (.bind s v t) 1 (s, .ok ())
  | occurs {s : Subst} {v : VarId} {t : Ty} (h : s.lookup v = .none) (hne : s.apply t ≠ .var v)
      (hocc : v ∈ (s.apply t).vars) :
      Run (.bind s v t) 1 (s, .error (.infiniteType (Ty.var v).render (s.apply t).render))
  | store {s : Subst} {v : VarId} {t : Ty} (h : s.lookup v = .none) (hne : s.apply t ≠ .var v)
      (hocc : v ∉ (s.apply t).vars) : Run (.bind s v t) 1 (s.insert v (s.apply t), .ok ())

/-- The calls that a call makes itself. A loop makes the call for its first pair, and goes on with
the rest if that call succeeds. -/
inductive Calls : Call → Call → Prop
  | bind {goal : Ty × Ty} {s : Subst} {p : Ty × Ty} {v : VarId} {t : Ty}
      (h : Ty.confront (s.apply p.1) (s.apply p.2) = .bind v t) :
      Calls (.unify goal s p) (.bind s v t)
  | split {goal : Ty × Ty} {s : Subst} {p : Ty × Ty} {pairs : List (Ty × Ty)}
      (h : Ty.confront (s.apply p.1) (s.apply p.2) = .split pairs) :
      Calls (.unify goal s p) (.each goal s pairs)
  | first {goal : Ty × Ty} {s : Subst} {p : Ty × Ty} {rest : List (Ty × Ty)} :
      Calls (.each goal s (p :: rest)) (.unify goal s p)
  | next {goal : Ty × Ty} {s s' : Subst} {p : Ty × Ty} {rest : List (Ty × Ty)} {n : Nat}
      (hfirst : Run (.unify goal s p) n (s', .ok ())) :
      Calls (.each goal s (p :: rest)) (.each goal s' rest)
  | bound {s : Subst} {v : VarId} {stored t : Ty} (h : s.lookup v = some stored) :
      Calls (.bind s v t) (.unify (stored, t) s (stored, t))

/-! ## What a call returns -/

/-- The pairs behind a call: they are worked through if it succeeds, and left if it fails. -/
def goOn (goal : Ty × Ty) (rest : List (Ty × Ty)) :
    Subst × Except Error Unit → Subst × Except Error Unit
  | (s, .ok ()) => if hs : s.Acyclic then s.unifyAll goal hs rest else (s, .ok ())
  | (s, .error e) => (s, .error e)

theorem goOn_ok {goal : Ty × Ty} {s : Subst} (hs : s.Acyclic) (rest : List (Ty × Ty)) :
    goOn goal rest (s, .ok ()) = s.unifyAll goal hs rest := dif_pos hs

/-- With no pairs behind it a call is the whole work. -/
theorem goOn_nil (goal : Ty × Ty) (out : Subst × Except Error Unit) : goOn goal [] out = out := by
  obtain ⟨s, verdict⟩ := out
  cases verdict with
  | error e => rfl
  | ok _ =>
    by_cases hs : s.Acyclic
    · rw [goOn_ok hs, unifyAll]
    · exact dif_neg hs

/-- A pair that comes to a binding does what `bind` does. -/
theorem unifyAll_of_bind {goal : Ty × Ty} {s : Subst} (hs : s.Acyclic) {p : Ty × Ty} {v : VarId} {t : Ty}
    (h : Ty.confront (s.apply p.1) (s.apply p.2) = .bind v t) (rest : List (Ty × Ty)) :
    s.unifyAll goal hs (p :: rest) = goOn goal rest (s.bind v t) := by
  obtain ⟨hv, -⟩ := resolved_of_confront_bind hs h
  -- `bind` resolves the type once more, to no effect
  have happly : s.apply t = t := by
    rcases Ty.confront_bind h with ⟨-, rfl⟩ | ⟨-, rfl⟩
    · exact hs.apply_apply p.2
    · exact hs.apply_apply p.1
  rw [unifyAll]
  split
  · simp_all
  · simp_all
  · rename_i v' t' h'
    obtain ⟨rfl, rfl⟩ : v' = v ∧ t' = t := by simpa [h] using h'.symm
    simp only [bind, not_isBound_iff.mp hv, happly]
    split
    · rw [goOn_ok hs]
    split
    · rfl
    · rename_i hne hocc
      have hmem : v' ∉ t'.vars := fun hmem => hocc (Ty.occurs_iff.mpr hmem)
      rw [goOn_ok (hs.insert hv (resolved_of_confront_bind hs h).2 hmem)]

/-- What a call returns is what becomes of its pairs when they are worked through before others. -/
def Call.Returns (c : Call) (out : Subst × Except Error Unit) : Prop :=
  match c with
  | .unify goal s p => ∀ (hs : s.Acyclic) rest, s.unifyAll goal hs (p :: rest) = goOn goal rest out
  | .each goal s pairs =>
    ∀ (hs : s.Acyclic) rest, s.unifyAll goal hs (pairs ++ rest) = goOn goal rest out
  | .bind s v t => s.Acyclic → s.bind v t = out

/-- A call that ends returns what the work on its pairs comes to. -/
theorem Run.returns {c : Call} {n : Nat} {out : Subst × Except Error Unit} (h : Run c n out) :
    c.Returns out := by
  induction h with
  | bind h _ ih =>
    intro hs rest
    rw [unifyAll_of_bind hs h, ih hs]
  | split h _ ih =>
    intro hs rest
    rw [← ih hs rest, unifyAll]
    split <;> simp_all
  | clash h =>
    intro hs rest
    rw [unifyAll]
    split <;> simp_all [goOn]
  | none =>
    intro hs rest
    rw [goOn_ok hs]
    rfl
  | @next goal s s' p rest n m out _ _ ihfirst ihrest =>
    intro hs more
    -- the rest is worked through on what the first pair left, which has to be acyclic again
    have hfirst : s.unifyAll goal hs [p] = (s', .ok ()) := by rw [ihfirst hs [], goOn_nil]
    have hs' : s'.Acyclic := by
      have hgrows := grows_unifyAll goal s hs [p]
      rw [hfirst] at hgrows
      exact hgrows.acyclic hs
    rw [List.cons_append, ihfirst hs, goOn_ok hs', ihrest hs']
  | stop _ ih =>
    intro hs rest
    exact ih hs _
  | @bound s v stored t _ _ h _ ih =>
    intro hs
    -- the stored type and the new one are unified with nothing behind them
    have hwork := ih hs []
    rw [goOn_nil] at hwork
    simp only [Subst.bind, h]
    rw [hs.unify_eq, hwork]
  | self h hself =>
    intro hs
    simp only [Subst.bind, h, hself, if_true]
  | occurs h hne hocc =>
    intro hs
    simp only [Subst.bind, h, if_neg hne, Ty.occurs_iff.mpr hocc, if_true]
  | @store s v t h hne hocc =>
    intro hs
    have hocc' : ¬(s.apply t).occurs v = true := fun hmem => hocc (Ty.occurs_iff.mp hmem)
    simp only [Subst.bind, h, if_neg hne, if_neg hocc']

/-- A call that ends has bound only variables that were open in its pairs. -/
theorem Run.growsWithin {c : Call} {n : Nat} {out : Subst × Except Error Unit} (h : Run c n out)
    (hs : c.store.Acyclic) : GrowsWithin (c.store.openVars c.work) c.store out.1 := by
  have hreturns := h.returns
  cases c with
  | unify goal s p =>
    rw [← goOn_nil goal out, ← hreturns hs]
    exact growsWithin_unifyAll goal s hs [p]
  | each goal s pairs =>
    rw [← goOn_nil goal out, ← hreturns hs, List.append_nil]
    exact growsWithin_unifyAll goal s hs pairs
  | bind s v t =>
    rw [← hreturns hs]
    exact growsWithin_bind hs v t

/-! ## Calls decrease -/

/-- Growing opens no other variables than those it grows within. -/
theorem GrowsWithin.mem_openVars {vars : List VarId} {s s' : Subst} (h : GrowsWithin vars s s')
    (hs : s.Acyclic) {work : List (Ty × Ty)} {w : VarId} (hw : w ∈ s'.openVars work) :
    w ∈ s.openVars work ∨ w ∈ vars := by
  induction h with
  | refl s => exact .inl hw
  | insert hv ht hocc hwithin _ ih =>
    rcases ih (hs.insert hv ht hocc) hw with hw | hw
    · rcases (mem_openVars_insert hs hv ht hocc hw).2 with hw | hw
      · exact .inl hw
      · exact .inr (hwithin w (.inr hw))
    · exact .inr hw

/-- A bound variable is not open. -/
theorem Acyclic.not_mem_openVars {s : Subst} (hs : s.Acyclic) {v : VarId} (hv : s.isBound v = true)
    (work : List (Ty × Ty)) : v ∉ s.openVars work := by
  intro hmem
  obtain ⟨p, -, hmem⟩ := Subst.mem_openVars.mp hmem
  have hunbound : s.isBound v = false := by
    rcases hmem with hmem | hmem
    · exact hs.resolved_apply p.1 v hmem
    · exact hs.resolved_apply p.2 v hmem
  rw [hv] at hunbound
  exact absurd hunbound (by decide)

/-- A pair that binds a variable leaves fewer open; one that binds none leaves less work. -/
theorem GrowsWithin.next_lt {s s' : Subst} (hs : s.Acyclic) {p : Ty × Ty} {rest : List (Ty × Ty)}
    (h : GrowsWithin (s.openVars [p]) s s') :
    Prod.Lex (· < ·) (· < ·) (s'.openCount rest, s'.weight rest)
      (s.openCount (p :: rest), s.weight (p :: rest)) := by
  have hpair : ∀ w ∈ s.openVars [p], w ∈ s.openVars (p :: rest) := by
    intro w hw
    simp only [openVars, List.flatMap_cons, List.flatMap_nil, List.append_nil] at hw ⊢
    exact List.mem_append_left _ hw
  have hacyclic := h.grows.acyclic hs
  have hsub : ∀ w ∈ s'.openVars rest, w ∈ s.openVars (p :: rest) := by
    intro w hw
    rcases h.mem_openVars hs hw with hw | hw
    · exact openVars_cons_subset s p rest w hw
    · exact hpair w hw
  -- either nothing was bound and the pair is gone, or some open variable is no longer open
  cases h with
  | refl =>
    have hdrop := drop_lt s p rest
    exact lex_of_le_of_lt hdrop.1 hdrop.2
  | @insert _ _ v t hv ht hocc hwithin hgrows =>
    have hbound : s'.isBound v = true :=
      isBound_iff.mpr ⟨t, hgrows.grows.lookup (lookup_insert_self s v t)⟩
    refine Prod.Lex.left _ _ (length_eraseDups_lt hsub (hpair v (hwithin v (.inl rfl))) ?_)
    exact hacyclic.not_mem_openVars hbound rest

/-- The place of a call among those with the same pairs: a loop and the binding of a bound variable
come before the pair, and the binding of an unbound variable comes after it. -/
def Call.turn : Call → Nat
  | unify _ _ _ => 1
  | each _ _ _ => 2
  | bind s v _ => if s.isBound v then 2 else 0

/-- What decreases along calls: open variables, the size of the resolved pairs, and the turn. -/
def Call.measure (c : Call) : (Nat × Nat) × Nat :=
  ((c.store.openCount c.work, c.store.weight c.work), c.turn)

/-- The order of the measure. -/
def Call.Below (c' c : Call) : Prop :=
  Prod.Lex (Prod.Lex (· < ·) (· < ·)) (· < ·) c'.measure c.measure

theorem Call.wellFounded_below : WellFounded Call.Below :=
  InvImage.wf Call.measure
    (WellFounded.prod_lex (WellFounded.prod_lex Nat.lt_wfRel.wf Nat.lt_wfRel.wf) Nat.lt_wfRel.wf)

/-- Pairs that resolve alike are the same work, so that only the turn decides. -/
theorem Call.below_of_turn_lt {c' c : Call}
    (hopen : ∀ w ∈ c'.store.openVars c'.work, w ∈ c.store.openVars c.work)
    (hweight : c'.store.weight c'.work ≤ c.store.weight c.work) (hturn : c'.turn < c.turn) :
    c'.Below c := by
  have hcount : c'.store.openCount c'.work ≤ c.store.openCount c.work := length_eraseDups_le hopen
  unfold Call.Below Call.measure
  rcases Nat.lt_or_eq_of_le hcount with hlt | heq
  · exact Prod.Lex.left _ _ (Prod.Lex.left _ _ hlt)
  rcases Nat.lt_or_eq_of_le hweight with hlt | heq'
  · exact Prod.Lex.left _ _ (lex_of_le_of_lt hcount hlt)
  · rw [heq, heq']
    exact Prod.Lex.right _ hturn

/-- A pair that comes to a binding is as much work as the binding: the variable and its type are the
two resolved types, in one order or the other. -/
theorem work_of_confront_bind {s : Subst} (hs : s.Acyclic) {p : Ty × Ty} {v : VarId} {t : Ty}
    (h : Ty.confront (s.apply p.1) (s.apply p.2) = .bind v t) :
    (∀ w ∈ s.openVars [(.var v, t)], w ∈ s.openVars [p]) ∧ s.weight [(.var v, t)] = s.weight [p] := by
  obtain ⟨hv, ht⟩ := resolved_of_confront_bind hs h
  constructor
  · intro w hw
    obtain ⟨q, hq, hw⟩ := mem_openVars.mp hw
    obtain rfl : q = (.var v, t) := List.mem_singleton.mp hq
    rw [apply_var_of_unbound hv, ht.vars_apply] at hw
    exact mem_openVars_of_confront_bind h [] (hw.imp (by simp [Ty.vars]) id)
  · simp only [weight, List.map_cons, List.map_nil, Ty.sizeList, apply_var_of_unbound hv, ht.size_apply]
    rcases Ty.confront_bind h with ⟨hvar, hterm⟩ | ⟨hvar, hterm⟩ <;> rw [hvar, hterm]
    omega

/-- A call on an acyclic substitution makes only calls that are below it, on acyclic ones. -/
theorem Calls.decreases {c c' : Call} (h : Calls c c') (hs : c.store.Acyclic) :
    c'.Below c ∧ c'.store.Acyclic := by
  cases h with
  | @bind goal s p v t h =>
    -- the same work under another name, so the turn has to go down
    obtain ⟨hopen, hweight⟩ := work_of_confront_bind hs h
    refine ⟨Call.below_of_turn_lt hopen (Nat.le_of_eq hweight) ?_, hs⟩
    have hv : s.isBound v = false := (resolved_of_confront_bind hs h).1
    simp [Call.turn, hv]
  | @split goal s p pairs h =>
    have hlt := split_lt hs h []
    rw [List.append_nil] at hlt
    exact ⟨Prod.Lex.left _ _ (lex_of_le_of_lt hlt.1 hlt.2), hs⟩
  | @first goal s p rest =>
    refine ⟨Call.below_of_turn_lt (fun w hw => ?_) ?_ (Nat.lt_succ_self 1), hs⟩
    · obtain ⟨q, hq, hw⟩ := mem_openVars.mp hw
      obtain rfl : q = p := List.mem_singleton.mp hq
      exact mem_openVars.mpr ⟨q, List.mem_cons_self, hw⟩
    · simp only [Call.store, Call.work, weight, List.map_cons, List.map_nil, Ty.sizeList]
      omega
  | @next goal s s' p rest n hfirst =>
    have hgrows := hfirst.growsWithin hs
    exact ⟨Prod.Lex.left _ _ (hgrows.next_lt hs), hgrows.grows.acyclic hs⟩
  | @bound s v stored t h =>
    -- a bound variable and its stored type resolve alike, so again only the turn goes down
    have happly : s.apply (.var v) = s.apply stored := hs.apply_var_of_lookup h
    have hopen : s.openVars [(stored, t)] = s.openVars [(.var v, t)] := by
      simp only [openVars, List.flatMap_cons, happly]
    have hweight : s.weight [(stored, t)] = s.weight [(.var v, t)] := by
      simp only [weight, List.map_cons, happly]
    refine ⟨Call.below_of_turn_lt (fun w hw => ?_) (Nat.le_of_eq hweight) ?_, hs⟩
    · exact (hopen ▸ hw : w ∈ s.openVars [(.var v, t)])
    · simp [Call.turn, isBound_iff.mpr ⟨stored, h⟩]

/-- On acyclic substitutions the calls can be made by well-founded recursion. -/
theorem wellFounded_calls :
    WellFounded fun c' c : { c : Call // c.store.Acyclic } => Calls c.1 c'.1 :=
  Subrelation.wf (fun {_ c} h => (h.decreases c.2).1) (InvImage.wf Subtype.val Call.wellFounded_below)

/-- No chain of calls that starts on an acyclic substitution is infinite. -/
theorem acc_calls {c : Call} (hs : c.store.Acyclic) : Acc (fun c' c => Calls c c') c := by
  induction c using Call.wellFounded_below.induction with
  | _ c ih =>
    refine ⟨c, fun c' h => ?_⟩
    obtain ⟨hbelow, hs'⟩ := h.decreases hs
    exact ih c' hbelow hs'

/-! ## Every call ends -/

/-- Every call on an acyclic substitution ends after finitely many calls. -/
theorem exists_run {c : Call} (hs : c.store.Acyclic) : ∃ n out, Run c n out := by
  induction acc_calls hs with
  | intro c _ ih =>
    cases c with
    | unify goal s p =>
      cases h : Ty.confront (s.apply p.1) (s.apply p.2) with
      | bind v t =>
        obtain ⟨n, out, hrun⟩ := ih _ (.bind h) hs
        exact ⟨n + 1, out, .bind h hrun⟩
      | split pairs =>
        obtain ⟨n, out, hrun⟩ := ih _ (.split h) hs
        exact ⟨n + 1, out, .split h hrun⟩
      | clash context => exact ⟨1, _, .clash h⟩
    | each goal s pairs =>
      cases pairs with
      | nil => exact ⟨0, _, .none⟩
      | cons p rest =>
        obtain ⟨n, ⟨s', verdict⟩, hfirst⟩ := ih _ .first hs
        -- the rest is a call only if the first pair succeeds
        cases verdict with
        | error e => exact ⟨n, _, .stop hfirst⟩
        | ok _ =>
          have hs' : s'.Acyclic := (hfirst.growsWithin hs).grows.acyclic hs
          obtain ⟨m, out, hrest⟩ := ih _ (.next hfirst) hs'
          exact ⟨n + m, out, .next hfirst hrest⟩
    | bind s v t =>
      cases h : s.lookup v with
      | some stored =>
        obtain ⟨n, out, hrun⟩ := ih _ (.bound h) hs
        exact ⟨n + 1, out, .bound h hrun⟩
      | none =>
        by_cases hself : s.apply t = .var v
        · exact ⟨1, _, .self h hself⟩
        by_cases hocc : v ∈ (s.apply t).vars
        · exact ⟨1, _, .occurs h hself hocc⟩
        · exact ⟨1, _, .store h hself hocc⟩

/-- A call to unify two types returns what `unify` does. -/
theorem Run.eq_unify {s : Subst} (hs : s.Acyclic) {a b : Ty} {n : Nat}
    {out : Subst × Except Error Unit} (h : Run (.unify (a, b) s (a, b)) n out) :
    out = s.unify a b := by
  rw [hs.unify_eq, h.returns hs, goOn_nil]

/-- Unifying and binding end, on every substitution that calls can make. On acyclic substitutions the
recursion is well-founded, so no chain of calls goes on for ever; a call ends after finitely many
calls in all, and then has made of the substitution what `unify` and `bind` make of it. -/
theorem Reachable.unify_bind_end {s : Subst} (h : s.Reachable) (a b : Ty) (v : VarId) :
    s.Acyclic ∧ (WellFounded fun c' c : { c : Call // c.store.Acyclic } => Calls c.1 c'.1) ∧
      (Acc (fun c' c => Calls c c') (.unify (a, b) s (a, b)) ∧
        (∃ n, Run (.unify (a, b) s (a, b)) n (s.unify a b)) ∧
        ∀ n out, Run (.unify (a, b) s (a, b)) n out → out = s.unify a b) ∧
      Acc (fun c' c => Calls c c') (.bind s v b) ∧ (∃ n, Run (.bind s v b) n (s.bind v b)) ∧
        ∀ n out, Run (.bind s v b) n out → out = s.bind v b := by
  have hs := h.acyclic
  have hunify : ∀ n out, Run (.unify (a, b) s (a, b)) n out → out = s.unify a b :=
    fun n out hrun => hrun.eq_unify hs
  have hbind : ∀ n out, Run (.bind s v b) n out → out = s.bind v b :=
    fun n out hrun => (hrun.returns hs).symm
  refine ⟨hs, wellFounded_calls, ⟨acc_calls hs, ?_, hunify⟩, acc_calls hs, ?_, hbind⟩
  · obtain ⟨n, out, hrun⟩ := exists_run (c := .unify (a, b) s (a, b)) hs
    exact ⟨n, hunify n out hrun ▸ hrun⟩
  · obtain ⟨n, out, hrun⟩ := exists_run (c := .bind s v b) hs
    exact ⟨n, hbind n out hrun ▸ hrun⟩

/-- With `?0` bound to `(?1,)`, binding `?0` to `(u8,)` goes back to unifying the stored type and ends
with `?1` bound as well. -/
theorem Reachable.unify_bind_end_of_bound :
    let s : Subst := (Subst.empty.bind 0 (.tuple [.var 1])).1
    s.Reachable ∧ s.isBound 0 = true ∧ Acc (fun c' c => Calls c c') (.bind s 0 (.tuple [.prim "u8"])) ∧
      ∃ n, Run (.bind s 0 (.tuple [.prim "u8"])) n
        (⟨[(1, .prim "u8"), (0, .tuple [.var 1])]⟩, .ok ()) := by
  intro s
  have hreach : s.Reachable := Reachable.empty.bind _ _
  have hrun : s.bind 0 (.tuple [.prim "u8"])
      = (⟨[(1, .prim "u8"), (0, .tuple [.var 1])]⟩, .ok ()) := by
    show s.unify (.tuple [.var 1]) (.tuple [.prim "u8"]) = _
    rw [hreach.acyclic.unify_eq]
    unfold s
    cbv
  obtain ⟨-, -, -, hacc, hend, -⟩ := hreach.unify_bind_end (.var 0) (.tuple [.prim "u8"]) 0
  exact ⟨hreach, rfl, hacc, hrun ▸ hend⟩

end Generics.Subst
