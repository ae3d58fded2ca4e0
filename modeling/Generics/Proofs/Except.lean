/-!
# Outcomes of steps

When a computation that can fail succeeds, so did each of its steps, and when all steps succeed, so
does the computation. Two computations whose steps agree through some view of their outcomes agree
through it as a whole. A computation with a state goes on from the state that a step leaves.
-/

namespace Generics

variable {ε ε' α β γ δ : Type}

/-- A mapped outcome succeeds only if the outcome does. -/
theorem exists_ok_of_map_eq_ok {f : α → β} {x : Except ε α} {b : β} (h : x.map f = .ok b) :
    ∃ a, x = .ok a ∧ f a = b := by
  cases x with
  | ok a => exact ⟨a, rfl, Except.ok.inj h⟩
  | error e => cases h

/-- Two steps in a row succeed only if both do. -/
theorem exists_ok_of_bind_eq_ok {f : α → Except ε β} {x : Except ε α} {b : β}
    (h : x >>= f = .ok b) : ∃ a, x = .ok a ∧ f a = .ok b := by
  cases x with
  | ok a => exact ⟨a, rfl, h⟩
  | error e => cases h

/-- Two steps in a row succeed if the first does, and then the second. -/
theorem exists_bind_eq_ok {f : α → Except ε β} {x : Except ε α} (hx : ∃ a, x = .ok a)
    (hf : ∀ a, x = .ok a → ∃ b, f a = .ok b) : ∃ b, x >>= f = .ok b := by
  obtain ⟨a, rfl⟩ := hx
  exact hf a rfl

/-- A step that succeeds for each member of a list succeeds for the list. -/
theorem exists_mapM_eq_ok {f : α → Except ε β} {xs : List α}
    (h : ∀ x ∈ xs, ∃ y, f x = .ok y) : ∃ ys, xs.mapM f = .ok ys := by
  induction xs with
  | nil => exact ⟨[], rfl⟩
  | cons x xs ih =>
    obtain ⟨⟨y, hy⟩, hxs⟩ := List.forall_mem_cons.mp h
    obtain ⟨ys, hys⟩ := ih hxs
    exact ⟨y :: ys, by rw [List.mapM_cons, hy, hys]; rfl⟩

/-- The view of a step and what follows it, from the view of the step. -/
theorem map_bind_of_eq {x : Except ε α} {f : α → Except ε β} {g : β → γ} {view : α → δ}
    {next : δ → Except ε γ} (h : ∀ a, (f a).map g = next (view a)) :
    (x >>= f).map g = x.map view >>= next := by
  cases x with
  | ok a => exact h a
  | error e => rfl

/-- The view of a last step. -/
theorem map_bind_pure (x : Except ε α) (f : α → β) (g : β → γ) :
    (x >>= fun a => pure (f a)).map g = x.map fun a => g (f a) := by
  cases x <;> rfl

/-- Another wording of the failure is no other result. -/
theorem mapError_eq_ok_iff {x : Except ε α} {f : ε → ε'} {a : α} :
    x.mapError f = .ok a ↔ x = .ok a := by
  cases x with
  | error e => exact iff_of_false nofun nofun
  | ok b =>
    show Except.ok b = Except.ok a ↔ _
    rw [Except.ok.injEq, Except.ok.injEq]

/-- A step and what comes after it. -/
theorem run_bind_eq {σ : Type} {m : StateM σ α} {k : α → StateM σ β} {st mid : σ} {a : α}
    (h : m.run st = (a, mid)) : (m >>= k).run st = (k a).run mid := by
  rw [StateT.run_bind, h]
  rfl

end Generics
