import Generics.Capability.Catalog
import Generics.Proofs.Except
import Mathlib.Logic.Relation

/-!
# Transitive supertraits

The supertraits of a capability are collected by a depth-first walk that drops each capability from
what remains once it is visited. When the walk succeeds it lists exactly the other capabilities that
the first one requires, directly or through others.

## Main results

* `mem_supertraits_iff`: a walk that succeeds lists the transitive supertraits and nothing else.
-/

namespace Generics

namespace Catalog

/-- A capability is found under its own name. -/
theorem find?_name {c : Catalog} {name : String} {cap : Capability} (h : c.find? name = some cap) :
    cap.name = name := by
  simpa using List.find?_some h

/-- The two ways to look up a capability agree. -/
theorem find_eq_ok_iff {c : Catalog} {name : String} {cap : Capability} :
    c.find name = .ok cap ↔ c.find? name = some cap := by
  unfold find
  cases c.find? name with
  | none => simp
  | some cap' => simp

/-- The first capability names the second among its supertraits. -/
def Requires (c : Catalog) (name super : String) : Prop :=
  ∃ cap, c.find? name = some cap ∧ super ∈ cap.supertraits

/-- The second capability is another one, required by the first directly or through others. -/
def IsSupertrait (c : Catalog) (name super : String) : Prop :=
  super ≠ name ∧ Relation.TransGen c.Requires name super

/-! ## What remains to be visited -/

/-- Dropping a capability of one name leaves the look-up of other names as it is. -/
theorem find?_eraseP_of_ne {caps : List Capability} {name other : String} (hne : other ≠ name) :
    (caps.eraseP fun cap => cap.name = name).find? (fun cap => cap.name = other)
      = caps.find? fun cap => cap.name = other := by
  induction caps with
  | nil => rfl
  | cons cap caps ih =>
    by_cases hname : cap.name = name
    · rw [List.eraseP_cons_of_pos (by simpa using hname), List.find?_cons_of_neg]
      simpa [hname] using hne.symm
    · rw [List.eraseP_cons_of_neg (by simpa using hname), List.find?_cons, List.find?_cons, ih]

/-- Every capability that is not visited can be found in what remains. -/
def Remains (c : Catalog) (visited : List String) (remaining : List Capability) : Prop :=
  ∀ name, name ∉ visited → remaining.find? (fun cap => cap.name = name) = c.find? name

/-- Visiting a capability and dropping it keeps the others in what remains. -/
theorem Remains.visit {c : Catalog} {visited : List String} {remaining : List Capability}
    (h : c.Remains visited remaining) (name : String) :
    c.Remains (name :: visited) (remaining.eraseP fun cap => cap.name = name) := by
  intro other hother
  rw [List.mem_cons, not_or] at hother
  rw [find?_eraseP_of_ne hother.1]
  exact h other hother.2

/-! ## What a walk lists -/

/-- A walk lists nothing that was visited before, and if all pending capabilities belong to a set
that is closed under supertraits, it lists only members of the set. -/
theorem followSupertraits_sound {c : Catalog} {P : String → Prop}
    (hclosed : ∀ name super, P name → c.Requires name super → P super)
    {root : String} {visited : List String} {remaining : List Capability}
    {pending : List (String × Nat)} {names : List String} (hremains : c.Remains visited remaining)
    (hpending : ∀ p ∈ pending, P p.1)
    (h : followSupertraits root visited remaining pending = .ok names) :
    ∀ name ∈ names, P name ∧ name ∉ visited := by
  fun_induction followSupertraits root visited remaining pending generalizing names with
  | case1 visited remaining =>
    obtain rfl := Except.ok.inj h
    simp
  | case2 visited remaining name depth pending hmem ih =>
    -- the capability was visited before
    exact ih hremains (fun p hp => hpending p (List.mem_cons_of_mem _ hp)) h
  | case3 => cases h
  | case4 => cases h
  | case5 visited remaining name depth pending hmem hdepth cap hfind _ ih =>
    -- the capability is listed, and its supertraits come before what was pending
    obtain ⟨rest, hrest, rfl⟩ := exists_ok_of_map_eq_ok h
    have hname : P name := hpending (name, depth) List.mem_cons_self
    have hcap : c.find? name = some cap := (hremains name hmem).symm.trans hfind
    have hpending' : ∀ p ∈ cap.supertraits.map (·, depth + 1) ++ pending, P p.1 := by
      intro p hp
      rcases List.mem_append.mp hp with hp | hp
      · obtain ⟨super, hsuper, rfl⟩ := List.mem_map.mp hp
        exact hclosed name super hname ⟨cap, hcap, hsuper⟩
      · exact hpending p (List.mem_cons_of_mem _ hp)
    intro other hother
    rcases List.mem_cons.mp hother with rfl | hother
    · exact ⟨hname, hmem⟩
    · obtain ⟨hP, hnew⟩ := ih (hremains.visit name) hpending' hrest other hother
      exact ⟨hP, fun hvisited => hnew (List.mem_cons_of_mem _ hvisited)⟩

/-- After a walk every pending capability is visited or listed, and so is every supertrait of a
listed one. -/
theorem followSupertraits_complete {c : Catalog} {root : String} {visited : List String}
    {remaining : List Capability} {pending : List (String × Nat)} {names : List String}
    (hremains : c.Remains visited remaining)
    (h : followSupertraits root visited remaining pending = .ok names) :
    (∀ p ∈ pending, p.1 ∈ visited ∨ p.1 ∈ names) ∧
      ∀ name ∈ names, ∀ super, c.Requires name super → super ∈ visited ∨ super ∈ names := by
  fun_induction followSupertraits root visited remaining pending generalizing names with
  | case1 visited remaining =>
    obtain rfl := Except.ok.inj h
    simp
  | case2 visited remaining name depth pending hmem ih =>
    obtain ⟨hpending, hnames⟩ := ih hremains h
    exact ⟨List.forall_mem_cons.mpr ⟨.inl hmem, hpending⟩, hnames⟩
  | case3 => cases h
  | case4 => cases h
  | case5 visited remaining name depth pending hmem hdepth cap hfind _ ih =>
    obtain ⟨rest, hrest, rfl⟩ := exists_ok_of_map_eq_ok h
    obtain ⟨hpending, hnames⟩ := ih (hremains.visit name) hrest
    have hcap : c.find? name = some cap := (hremains name hmem).symm.trans hfind
    -- a capability that is visited or listed below is visited before, or listed here
    have hlift : ∀ other, other ∈ name :: visited ∨ other ∈ rest →
        other ∈ visited ∨ other ∈ name :: rest := by
      rintro other (hother | hother)
      · rcases List.mem_cons.mp hother with rfl | hother
        · exact .inr List.mem_cons_self
        · exact .inl hother
      · exact .inr (List.mem_cons_of_mem _ hother)
    refine ⟨List.forall_mem_cons.mpr ⟨.inr List.mem_cons_self, fun p hp => ?_⟩, ?_⟩
    · exact hlift p.1 (hpending p (List.mem_append_right _ hp))
    · intro other hother super hsuper
      rcases List.mem_cons.mp hother with rfl | hother
      · obtain ⟨cap', hcap', hmem'⟩ := hsuper
        obtain rfl : cap = cap' := Option.some.inj (hcap.symm.trans hcap')
        exact hlift super (hpending (super, depth + 1)
          (List.mem_append_left _ (List.mem_map_of_mem hmem')))
      · exact hlift super (hnames other hother super hsuper)

/-- The walk from a capability lists the capability's transitive supertraits and nothing else. -/
theorem mem_supertraits_iff {c : Catalog} {name : String} {names : List String}
    (h : c.supertraits name = .ok names) {super : String} :
    super ∈ names ↔ c.IsSupertrait name super := by
  obtain ⟨cap, hfind, h⟩ := exists_ok_of_bind_eq_ok h
  rw [find_eq_ok_iff] at hfind
  have hremains : c.Remains [name] (c.capabilities.eraseP fun cap => cap.name = name) :=
    Remains.visit (fun _ _ => rfl) name
  constructor
  · intro hsuper
    have hpending : ∀ p ∈ cap.supertraits.map (·, 1), Relation.TransGen c.Requires name p.1 := by
      intro p hp
      obtain ⟨super, hsuper, rfl⟩ := List.mem_map.mp hp
      exact .single ⟨cap, hfind, hsuper⟩
    obtain ⟨hpath, hnew⟩ := followSupertraits_sound (fun _ _ hpath hstep => hpath.tail hstep)
      hremains hpending h super hsuper
    exact ⟨by simpa using hnew, hpath⟩
  · rintro ⟨hne, hpath⟩
    obtain ⟨hpending, hnames⟩ := followSupertraits_complete hremains h
    have hroot : ∀ super, c.Requires name super → super ∈ [name] ∨ super ∈ names := by
      rintro super ⟨cap', hcap', hmem⟩
      obtain rfl : cap = cap' := Option.some.inj (hfind.symm.trans hcap')
      exact hpending _ (List.mem_map_of_mem hmem)
    -- a path may come back to the first capability, which is visited but not listed
    have hreached : super ∈ [name] ∨ super ∈ names := by
      clear hne
      induction hpath with
      | single hstep => exact hroot _ hstep
      | tail _ hstep ih =>
        rcases ih with hname | hlisted
        · obtain rfl := List.mem_singleton.mp hname
          exact hroot _ hstep
        · exact hnames _ hlisted _ hstep
    exact hreached.resolve_left (by simpa using hne)

end Catalog

end Generics
