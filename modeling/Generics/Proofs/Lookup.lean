import Mathlib.Data.List.Nodup

/-!
# Searching by name

Searching a list for the entry with a name. Where no name occurs twice, an entry is found exactly
when it is in the list, so that neither its place nor the other entries matter.
-/

namespace Generics

variable {κ α : Type}

/-- Where names are different, the entry with a name is found. -/
theorem find?_eq_some_iff_of_nodup [DecidableEq κ] {key : α → κ} {xs : List α}
    (hdistinct : (xs.map key).Nodup) {k : κ} {x : α} :
    xs.find? (fun x => key x = k) = some x ↔ x ∈ xs ∧ key x = k := by
  constructor
  · intro h
    have hk : key x = k := by simpa using List.find?_some h
    exact ⟨List.mem_of_find?_eq_some h, hk⟩
  · rintro ⟨hx, hk⟩
    cases hfound : xs.find? fun x => key x = k with
    | none =>
      have hnone := List.find?_eq_none.mp hfound x hx
      simp [hk] at hnone
    | some y =>
      have hy : key y = k := by simpa using List.find?_some hfound
      rw [List.inj_on_of_nodup_map hdistinct (List.mem_of_find?_eq_some hfound) hx
        (hy.trans hk.symm)]

/-- Where names are different, the order of the entries does not matter. -/
theorem find?_of_perm [DecidableEq κ] {key : α → κ} {xs ys : List α}
    (hdistinct : (xs.map key).Nodup) (h : xs.Perm ys) (k : κ) :
    xs.find? (fun x => key x = k) = ys.find? fun x => key x = k := by
  have hdistinct' : (ys.map key).Nodup := (h.map key).nodup_iff.mp hdistinct
  ext x
  rw [find?_eq_some_iff_of_nodup hdistinct, find?_eq_some_iff_of_nodup hdistinct', h.mem_iff]

end Generics
