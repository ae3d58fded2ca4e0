import Generics.Proofs.Capability.Registry
import Generics.Proofs.Fresh
import Generics.Proofs.Subst.Matching

/-!
# Instantiating a selected implementation

An implementation is selected by renaming its header apart from the target and matching. Later types
that are written with its generics, those of its conditions and any that a caller asks for, are
renamed with the same names, and the variables among them that have none yet get fresh ones. So a
selection changes with each use, and every type is instantiated by the names that were given up to
then.

Names are only added. A selection in use can therefore be described by one assignment of types to
variables, the `Selection.assignment` of its last state, by which all types were instantiated so
far. What the assignment makes of the variables of the header is fixed by the match; all other
variables get names that occur nowhere in the target.

The counter that the names come from has 64 bits, so this holds as long as it does not wrap around:
after the variables of the target there have to be numbers left for all variables that are renamed.

## Main results

* `Selection.instantiateAll_eq`: all types are instantiated by one assignment;
* `Selection.InUse` and `Selection.InUse.instantiateAll`: what is known of a selection, kept by
  every use;
* `Catalog.ensures_select`: a selection is returned as its conditions left it;
* `Registry.select_instantiates`: what instantiating types with a selection gives.
-/

namespace Generics

/-- Applying a substitution after a replacement is replacing by the types it was applied to. -/
theorem Subst.apply_subst (s : Subst) (f : VarId → Ty) (t : Ty) :
    s.apply (t.subst f) = t.subst fun v => s.apply (f v) := by
  unfold Subst.apply
  split
  · rfl
  · exact Ty.subst_subst f _ t

/-- The types that a condition mentions, in the order in which they are instantiated. -/
def WhereClause.types (clause : WhereClause) : List Ty :=
  clause.bounds.flatMap Bound.args ++ [clause.type]

/-- The types of the conditions of an implementation, in the order of their instantiation. -/
def Implementation.clauseTypes (i : Implementation) : List Ty := i.clauses.flatMap WhereClause.types

/-- The types that an implementation is selected by: its header and its conditions. -/
def Implementation.types (i : Implementation) : List Ty := i.header :: i.clauseTypes

namespace Selection

/-! ## One assignment for all types -/

/-- What a variable stands for, as far as the selection has been used. -/
def assignment (sel : Selection) (v : VarId) : Ty := sel.subst.apply (.var (sel.names.image v))

/-- The selection after a use: the same implementation and match, with the names it had and maybe
more. -/
structure Precedes (sel sel' : Selection) : Prop where
  implementation : sel'.implementation = sel.implementation
  subst : sel'.subst = sel.subst
  lookup : ∀ v w, sel.names.lookup v = some w → sel'.names.lookup v = some w

/-- A type is instantiated after its variables were given names. -/
theorem instantiate_cover (sel : Selection) (t : Ty) :
    sel.instantiate t =
      (sel.subst.apply (t.subst fun v => .var ((sel.fresher.cover sel.names t.vars).1.image v)),
        { sel with
          names := (sel.fresher.cover sel.names t.vars).1
          fresher := (sel.fresher.cover sel.names t.vars).2 }) := by
  rw [instantiate, Fresher.renameApart_eq]

/-- An instance adds to the names of the selection. -/
theorem precedes_instantiate (sel : Selection) (t : Ty) : sel.Precedes (sel.instantiate t).2 := by
  rw [instantiate_cover]
  exact ⟨rfl, rfl, fun _ _ h => Fresher.lookup_cover h sel.fresher t.vars⟩

theorem Precedes.refl (sel : Selection) : sel.Precedes sel := ⟨rfl, rfl, fun _ _ h => h⟩

theorem Precedes.trans {sel sel' sel'' : Selection} (h : sel.Precedes sel')
    (h' : sel'.Precedes sel'') : sel.Precedes sel'' where
  implementation := h'.implementation.trans h.implementation
  subst := h'.subst.trans h.subst
  lookup v w hw := h'.lookup v w (h.lookup v w hw)

/-- Instances add to the names of the selection. -/
theorem precedes_instantiateAll (sel : Selection) (ts : List Ty) :
    sel.Precedes (sel.instantiateAll ts).2 := by
  induction ts generalizing sel with
  | nil => exact .refl sel
  | cons t ts ih => exact (sel.precedes_instantiate t).trans (ih _)

/-- A variable that has a name keeps one. -/
theorem Precedes.isSome_lookup {sel sel' : Selection} (h : sel.Precedes sel') {v : VarId}
    (hv : (sel.names.lookup v).isSome = true) : (sel'.names.lookup v).isSome = true := by
  rw [h.lookup v _ (Fresher.lookup_eq_image hv), Option.isSome_some]

/-- Variables with names keep what they stand for. -/
theorem Precedes.image_eq {sel sel' : Selection} (h : sel.Precedes sel') {v : VarId}
    (hv : (sel.names.lookup v).isSome = true) : sel'.names.image v = sel.names.image v := by
  have hlookup := h.lookup v _ (Fresher.lookup_eq_image hv)
  rw [Renaming.image, hlookup, Option.getD_some]

/-- A variable that has a name keeps its value. -/
theorem Precedes.assignment_eq {sel sel' : Selection} (h : sel.Precedes sel') {v : VarId}
    (hv : (sel.names.lookup v).isSome = true) : sel'.assignment v = sel.assignment v := by
  rw [assignment, assignment, h.subst, h.image_eq hv]

/-- Instantiating a type gives names to all of its variables. -/
theorem isSome_lookup_instantiate (sel : Selection) (t : Ty) :
    ∀ v ∈ t.vars, ((sel.instantiate t).2.names.lookup v).isSome = true := by
  rw [instantiate_cover]
  exact sel.fresher.isSome_lookup_cover sel.names t.vars

/-- All variables of the types that were instantiated have names. -/
theorem isSome_lookup_instantiateAll (sel : Selection) (ts : List Ty) :
    ∀ t ∈ ts, ∀ v ∈ t.vars, ((sel.instantiateAll ts).2.names.lookup v).isSome = true := by
  induction ts generalizing sel with
  | nil => simp
  | cons t ts ih =>
    refine List.forall_mem_cons.mpr ⟨fun v hv => ?_, ih _⟩
    exact (precedes_instantiateAll _ ts).isSome_lookup (sel.isSome_lookup_instantiate t v hv)

/-- A type is instantiated by the assignment after its variables have names. -/
theorem instantiate_eq (sel : Selection) (t : Ty) :
    (sel.instantiate t).1 = t.subst (sel.instantiate t).2.assignment := by
  rw [instantiate_cover]
  exact Subst.apply_subst _ _ t

/-- All types are instantiated by the assignment after the last of them. -/
theorem instantiateAll_eq (sel : Selection) (ts : List Ty) :
    (sel.instantiateAll ts).1 = ts.map (Ty.subst (sel.instantiateAll ts).2.assignment) := by
  induction ts generalizing sel with
  | nil => rfl
  | cons t ts ih =>
    -- the names that the first type was instantiated with are still there at the end
    have hfirst : (sel.instantiate t).1 =
        t.subst ((sel.instantiate t).2.instantiateAll ts).2.assignment := by
      rw [instantiate_eq]
      refine Ty.subst_congr fun v hv => Eq.symm ?_
      exact (precedes_instantiateAll _ ts).assignment_eq (sel.isSome_lookup_instantiate t v hv)
    show (sel.instantiate t).1 :: ((sel.instantiate t).2.instantiateAll ts).1 = _
    rw [hfirst, ih]
    rfl

/-- Types whose variables have names are instantiated by the assignment as it is. -/
theorem instantiateAll_eq_of_named {sel : Selection} {ts : List Ty}
    (hnamed : ∀ t ∈ ts, ∀ v ∈ t.vars, (sel.names.lookup v).isSome = true) :
    (sel.instantiateAll ts).1 = ts.map (Ty.subst sel.assignment) := by
  rw [instantiateAll_eq]
  refine List.map_congr_left fun t ht => Ty.subst_congr fun v hv => ?_
  exact (sel.precedes_instantiateAll ts).assignment_eq (hnamed t ht v hv)

/-! ## What is known of a selection in use -/

/-- What is known of a selection for a target while only variables of `all` are renamed: the supply
gave out its names, all variables of the header have one, and the header under these names was
matched. -/
structure InUse (target all : Ty) (sel : Selection) : Prop where
  issued : Fresher.Issued (Fresher.after [target]).next.toNat sel.names sel.fresher
  keys : ∀ v ∈ sel.names.map Prod.fst, v ∈ all.vars
  named : ∀ v ∈ sel.implementation.header.vars, (sel.names.lookup v).isSome = true
  matched : Subst.empty.matchPattern
    (sel.implementation.header.subst fun v => .var (sel.names.image v)) target = (sel.subst, true)

/-- A selection is made with names for the variables of the header. -/
theorem inUse_of_of? {i : Implementation} {target all : Ty} {sel : Selection}
    (h : Selection.of? i target = some sel) (hall : ∀ v ∈ i.header.vars, v ∈ all.vars) :
    sel.InUse target all := by
  simp only [Selection.of?, Fresher.renameApart_eq] at h
  split at h
  · rename_i s hmatch
    obtain rfl := Option.some.inj h
    have hkeys : ∀ v ∈ ((Fresher.after [target]).cover [] i.header.vars).1.map Prod.fst,
        v ∈ i.header.vars :=
      fun v hv => (Fresher.mem_map_fst_cover hv).resolve_left (by simp)
    exact ⟨(Fresher.issued_nil _).cover _, fun v hv => hall v (hkeys v hv),
      Fresher.isSome_lookup_cover _ _ _, hmatch⟩
  · cases h

/-- One use keeps what is known. -/
theorem InUse.instantiate {target all : Ty} {sel : Selection} (h : sel.InUse target all) {t : Ty}
    (ht : ∀ v ∈ t.vars, v ∈ all.vars) : (sel.instantiate t).2.InUse target all := by
  have hprecedes := sel.precedes_instantiate t
  refine ⟨?_, fun v hv => ?_, fun v hv => ?_, ?_⟩
  · rw [instantiate_cover]
    exact h.issued.cover t.vars
  · rw [instantiate_cover] at hv
    rcases Fresher.mem_map_fst_cover hv with hv | hv
    · exact h.keys v hv
    · exact ht v hv
  · exact hprecedes.isSome_lookup (h.named v hv)
  · -- the header is renamed as before, since its variables had names already
    have hheader : (sel.implementation.header.subst fun v =>
        .var ((sel.instantiate t).2.names.image v)) =
        sel.implementation.header.subst fun v => .var (sel.names.image v) :=
      Ty.subst_congr fun v hv => congrArg Ty.var (hprecedes.image_eq (h.named v hv))
    show Subst.empty.matchPattern (sel.implementation.header.subst fun v =>
      .var ((sel.instantiate t).2.names.image v)) target = _
    rw [hheader]
    exact h.matched

/-- So does any number of uses. -/
theorem InUse.instantiateAll {target all : Ty} {sel : Selection} (h : sel.InUse target all)
    {ts : List Ty} (hts : ∀ t ∈ ts, ∀ v ∈ t.vars, v ∈ all.vars) :
    (sel.instantiateAll ts).2.InUse target all := by
  induction ts generalizing sel with
  | nil => exact h
  | cons t ts ih =>
    obtain ⟨ht, hts⟩ := List.forall_mem_cons.mp hts
    exact ih (h.instantiate ht) hts

/-- What is written with the variables of the header is instantiated by the assignment as it is. -/
theorem InUse.instantiate_eq {target all : Ty} {sel : Selection} (h : sel.InUse target all) {u : Ty}
    (hu : ∀ v ∈ u.vars, v ∈ sel.implementation.header.vars) :
    (sel.instantiate u).1 = u.subst sel.assignment := by
  have hnamed : ∀ t ∈ [u], ∀ v ∈ t.vars, (sel.names.lookup v).isSome = true := by
    simpa using fun v hv => h.named v (hu v hv)
  exact List.singleton_inj.mp (instantiateAll_eq_of_named hnamed)

section

variable {target all : Ty} {sel : Selection} (h : sel.InUse target all)
  (hroom : target.LeavesRoom all)
include h hroom

/-- The match was one of types without common variables. -/
theorem InUse.matchPattern_spec :
    sel.subst.BindsOnly
        (sel.implementation.header.subst fun v => .var (sel.names.image v)).vars ∧
      (sel.implementation.header.subst sel.assignment).erase = target.erase := by
  have hapart : ∀ v ∈ target.vars,
      v ∉ (sel.implementation.header.subst fun v => .var (sel.names.image v)).vars := by
    -- all variables of the renamed header are names
    intro v hv hmem
    obtain ⟨u, hu, hvu⟩ := Ty.mem_vars_subst.mp hmem
    obtain rfl : v = sel.names.image u := by simpa [Ty.vars] using hvu
    exact h.issued.notMem_vars hroom h.keys (Fresher.lookup_eq_image (h.named u hu)) hv
  obtain ⟨-, hbinds, hvalue⟩ := Subst.matchPattern_spec hapart h.matched
  rw [Subst.apply_subst] at hvalue
  exact ⟨hbinds, hvalue⟩

/-- The type and the arguments of the implementation are instantiated to those of the target. -/
theorem InUse.erase_instantiate_header {t : Ty} {args : List Ty}
    (htarget : target = Implementation.headerOf t args) :
    (sel.instantiate sel.implementation.type).1.erase = t.erase ∧
      (sel.instantiateAll sel.implementation.args).1.map Ty.erase = args.map Ty.erase := by
  have hheader : sel.implementation.header.vars =
      sel.implementation.type.vars ++ sel.implementation.args.flatMap Ty.vars := by
    simp [Implementation.header, Implementation.headerOf, Ty.vars]
  have hvalue := (h.matchPattern_spec hroom).2
  rw [h.instantiate_eq fun v hv => hheader ▸ List.mem_append_left _ hv,
    instantiateAll_eq_of_named fun u hu v hv =>
      h.named v (hheader ▸ List.mem_append_right _ (List.mem_flatMap.mpr ⟨u, hu, hv⟩))]
  simpa [htarget, Implementation.header, Implementation.headerOf, Ty.subst, Ty.erase] using hvalue

/-- A type that is written with the variables of the header only is instantiated to one with
variables of the target. -/
theorem InUse.mem_vars_instantiate {u : Ty}
    (hu : ∀ v ∈ u.vars, v ∈ sel.implementation.header.vars) {w : VarId}
    (hw : w ∈ (sel.instantiate u).1.vars) : w ∈ target.vars := by
  rw [h.instantiate_eq hu] at hw
  obtain ⟨v, hv, hw⟩ := Ty.mem_vars_subst.mp hw
  -- the variable occurs in what a variable of the header stands for, hence in the whole header
  rw [← Ty.mem_vars_erase, ← (h.matchPattern_spec hroom).2, Ty.mem_vars_erase]
  exact Ty.mem_vars_subst.mpr ⟨v, hu v hv, hw⟩

/-- Any other variable with a name stands for its name. -/
theorem InUse.assignment_eq_var {v : VarId} (hv : v ∉ sel.implementation.header.vars)
    (hnamed : (sel.names.lookup v).isSome = true) :
    sel.assignment v = .var (sel.names.image v) := by
  -- only names of the header's variables are bound, and no two variables share a name
  have hunbound : sel.subst.Resolved (.var (sel.names.image v)) := by
    refine (h.matchPattern_spec hroom).1.resolved fun w hw hmem => ?_
    obtain ⟨u, hu, hwu⟩ := Ty.mem_vars_subst.mp hmem
    obtain rfl : w = sel.names.image v := by simpa [Ty.vars] using hw
    have himage : sel.names.image v = sel.names.image u := by simpa [Ty.vars] using hwu
    have huv := h.issued.eq_of_lookup hroom h.keys (himage ▸ Fresher.lookup_eq_image (h.named u hu))
      (Fresher.lookup_eq_image hnamed)
    exact hv (huv ▸ hu)
  rw [assignment, Subst.apply]
  split
  · rfl
  · exact Subst.resolve_of_unbound (hunbound _ (by simp [Ty.vars])) _

/-- The name is not a variable of the target. -/
theorem InUse.exists_assignment_eq_var {v : VarId} (hv : v ∉ sel.implementation.header.vars)
    (hnamed : (sel.names.lookup v).isSome = true) :
    ∃ w, sel.assignment v = .var w ∧ w ∉ target.vars :=
  ⟨sel.names.image v, h.assignment_eq_var hroom hv hnamed,
    h.issued.notMem_vars hroom h.keys (Fresher.lookup_eq_image hnamed)⟩

end

/-! ## Conditions -/

/-- The types of a list are instantiated one after the other. -/
theorem instantiateAll_append (sel : Selection) (ts us : List Ty) :
    (sel.instantiateAll (ts ++ us)).2 = ((sel.instantiateAll ts).2.instantiateAll us).2 := by
  induction ts generalizing sel with
  | nil => rfl
  | cons t ts ih => exact ih (sel.instantiate t).2

/-- Bounds are instantiated through their arguments. -/
theorem instantiateBounds_snd (sel : Selection) (bounds : List Bound) :
    (sel.instantiateBounds bounds).2 = (sel.instantiateAll (bounds.flatMap Bound.args)).2 := by
  induction bounds generalizing sel with
  | nil => rfl
  | cons b bounds ih =>
    rw [List.flatMap_cons, instantiateAll_append]
    exact ih (sel.instantiateAll b.args).2

end Selection

namespace Catalog

/-- Conditions that are met leave the selection as their types were instantiated by it. -/
theorem ensures_checkClauses (c : Catalog) (check : Ty → Bound → CheckM Unit)
    (explain : Error → Error) (sel : Selection) (clauses : List WhereClause) :
    CheckM.Ensures (fun _ => True) (c.checkClauses check explain sel clauses) fun outcome =>
      ∀ sel', outcome = .ok sel' →
        sel' = (sel.instantiateAll (clauses.flatMap WhereClause.types)).2 := by
  induction clauses generalizing sel with
  | nil => exact CheckM.ensures_pure fun sel' h => (Except.ok.inj h).symm
  | cons clause clauses ih =>
    -- the types of the first clause are instantiated before those of the others
    have hsplit : (sel.instantiateAll ((clause :: clauses).flatMap WhereClause.types)).2 =
        (((sel.instantiateBounds clause.bounds).2.instantiate clause.type).2.instantiateAll
          (clauses.flatMap WhereClause.types)).2 := by
      rw [List.flatMap_cons, Selection.instantiateAll_append, WhereClause.types,
        Selection.instantiateAll_append, Selection.instantiateBounds_snd]
      rfl
    rw [hsplit, checkClauses]
    exact CheckM.Ensures.bind (fun _ _ _ _ _ => ⟨trivial, trivial⟩) (fun _ _ => ih _)
      (fun e _ sel' h => by cases h)

/-- A selection is returned as its conditions left it. -/
theorem ensures_select (c : Catalog) (depth : Nat) (capability : String) (t : Ty)
    (args : List Ty) :
    CheckM.Ensures (fun _ => True) (c.select depth capability t args) fun outcome =>
      ∀ sel, outcome = .ok sel → ∃ cap filled matched, c.find? capability = some cap ∧
        cap.fillArgs args = .ok filled ∧ c.FirstMatch cap.name t filled matched ∧
        sel = (matched.instantiateAll matched.implementation.clauseTypes).2 := by
  refine CheckM.Ensures.lift_bind (fun cap hfind => ?_) (fun e _ sel h => by cases h)
  refine CheckM.Ensures.lift_bind (fun filled hargs => ?_) (fun e _ sel h => by cases h)
  rw [find_eq_ok_iff] at hfind
  unfold selectWith
  cases hselect : c.select? cap.name t filled with
  | none => exact CheckM.ensures_throw fun sel h => by cases h
  | some matched =>
    intro cache outcome cache' _ hrun
    refine ⟨trivial, fun sel hsel => ?_⟩
    obtain ⟨-, hclauses⟩ := c.ensures_checkClauses _ _ matched _ cache outcome cache' trivial hrun
    exact ⟨cap, filled, matched, hfind, hargs, select?_eq_some_iff.mp hselect, hclauses sel hsel⟩

end Catalog

/-- What is indexed has elements that can be turned into some other type. -/
def Catalog.indexed : Catalog where
  capabilities := [⟨"Into", [⟨"T", .inv, [], none⟩], [], [], []⟩,
    ⟨"Index", [⟨"I", .inv, [], some (.prim "u64")⟩], [], [], []⟩]
  implementations := [⟨"Into", .var 0, [.var 1], [], []⟩,
    ⟨"Index", .named "Vec" [] [.var 0], [.var 1], [⟨.var 0, [.parameterized "Into" [.var 2]]⟩], []⟩]

namespace Registry

open Catalog (indexed)

/-- A selected implementation has been used for its conditions only. -/
theorem inUse_of_select {r r' : Registry} {depth : Nat} {capability : String} {t : Ty}
    {args : List Ty} {sel : Selection}
    (hrun : r.select depth capability t args = some (r', .ok sel)) :
    ∃ cap filled, r.catalog.find? capability = some cap ∧ cap.fillArgs args = .ok filled ∧
      ∀ all : Ty, (∀ u ∈ sel.implementation.types, ∀ v ∈ u.vars, v ∈ all.vars) →
        sel.InUse (Implementation.headerOf t filled) all := by
  unfold select run at hrun
  obtain ⟨⟨outcome, cache⟩, hfirst, hrun⟩ := Option.bind_eq_some_iff.mp hrun
  obtain ⟨rfl, rfl⟩ := Prod.mk.inj (Option.some.inj hrun)
  obtain ⟨-, hselect⟩ := Catalog.ensures_select _ _ _ _ _ _ _ _ trivial hfirst
  obtain ⟨cap, filled, matched, hfind, hargs, ⟨-, -, -, hof, -⟩, rfl⟩ := hselect sel rfl
  refine ⟨cap, filled, hfind, hargs, fun all hall => ?_⟩
  -- the header was renamed when it was matched, and the conditions when they were checked
  rw [(matched.precedes_instantiateAll _).implementation, Implementation.types] at hall
  obtain ⟨hheader, hclauses⟩ := List.forall_mem_cons.mp hall
  exact (Selection.inUse_of_of? hof hheader).instantiateAll hclauses

/-- Every type that is instantiated with a selected implementation, in whatever order and however
often, is instantiated by one assignment `τ`. It makes the header of the implementation the type and
the arguments that it was selected for. What is written with the variables of the header has only
variables of these, and every other variable stands for one that these do not have. -/
theorem select_instantiates {r r' : Registry} {depth : Nat} {capability : String} {t : Ty}
    {args : List Ty} {sel : Selection}
    (hrun : r.select depth capability t args = some (r', .ok sel)) :
    ∃ cap filled, r.catalog.find? capability = some cap ∧ cap.fillArgs args = .ok filled ∧
      ∀ ts : List Ty, (Implementation.headerOf t filled).LeavesRoom
          (.tuple (sel.implementation.types ++ ts)) →
        ((sel.instantiateAll ts).2.instantiate sel.implementation.type).1.erase = t.erase ∧
        ((sel.instantiateAll ts).2.instantiateAll sel.implementation.args).1.map Ty.erase =
          filled.map Ty.erase ∧
        (∀ u, (∀ v ∈ u.vars, v ∈ sel.implementation.header.vars) →
          ∀ w ∈ ((sel.instantiateAll ts).2.instantiate u).1.vars,
            w ∈ t.vars ∨ ∃ a ∈ filled, w ∈ a.vars) ∧
        ∃ τ : VarId → Ty, (sel.instantiateAll ts).1 = ts.map (Ty.subst τ) ∧
          ∀ u ∈ ts, ∀ v ∈ u.vars, v ∉ sel.implementation.header.vars →
            ∃ w, τ v = .var w ∧ w ∉ t.vars ∧ ∀ a ∈ filled, w ∉ a.vars := by
  obtain ⟨cap, filled, hfind, hargs, hselected⟩ := inUse_of_select hrun
  refine ⟨cap, filled, hfind, hargs, fun ts hroom => ?_⟩
  -- no variables are renamed but those of the header, the conditions and the types
  have hall : ∀ u ∈ sel.implementation.types ++ ts, ∀ v ∈ u.vars,
      v ∈ (Ty.tuple (sel.implementation.types ++ ts)).vars := by
    intro u hu v hv
    rw [Ty.vars, Ty.varsList_eq_flatMap]
    exact List.mem_flatMap.mpr ⟨u, hu, hv⟩
  have hparts := List.forall_mem_append.mp hall
  have hused := (hselected _ hparts.1).instantiateAll hparts.2
  have htarget (w : VarId) : w ∈ (Implementation.headerOf t filled).vars ↔
      w ∈ t.vars ∨ ∃ a ∈ filled, w ∈ a.vars := by
    simp [Implementation.headerOf, Ty.vars]
  obtain ⟨htype, hargs⟩ := hused.erase_instantiate_header hroom rfl
  rw [(sel.precedes_instantiateAll ts).implementation] at htype hargs
  refine ⟨htype, hargs, fun u hu w hw => (htarget w).mp ?_, _, sel.instantiateAll_eq ts, ?_⟩
  · rw [← (sel.precedes_instantiateAll ts).implementation] at hu
    exact hused.mem_vars_instantiate hroom hu hw
  · intro u hu v hv hother
    rw [← (sel.precedes_instantiateAll ts).implementation] at hother
    obtain ⟨w, hw, hnot⟩ := hused.exists_assignment_eq_var hroom hother
      (sel.isSome_lookup_instantiateAll ts u hu v hv)
    rw [htarget, not_or] at hnot
    exact ⟨w, hw, hnot.1, fun a ha hwa => hnot.2 ⟨a, ha, hwa⟩⟩

/-- Indexing is selected for lists whose elements have an unknown type, and two types are
instantiated. The variable of the condition has the name that it got there, and the one that only
these two have is renamed alike in both. -/
theorem select_instantiates_of_indexed :
    let t : Ty := .named "Vec" [] [.var 5]
    let ts : List Ty := [.tuple [.var 9, .var 0, .var 2], .var 9]
    ∃ r' sel, Registry.select ⟨indexed, []⟩ 3 "Index" t [] = some (r', .ok sel) ∧
      (Implementation.headerOf t [.prim "u64"]).LeavesRoom
        (.tuple (sel.implementation.types ++ ts)) ∧
      (sel.instantiateAll ts).1 = [.tuple [.var 9, .var 5, .var 8], .var 9] ∧
      ((sel.instantiateAll ts).2.instantiate sel.implementation.type).1.erase = t.erase ∧
      ((sel.instantiateAll ts).2.instantiateAll sel.implementation.args).1.map Ty.erase =
        [.prim "u64"] ∧
      ∃ τ : VarId → Ty, (sel.instantiateAll ts).1 = ts.map (Ty.subst τ) ∧
        ∃ w, τ 2 = .var w ∧ w ∉ t.vars := by
  intro t ts
  let sel : Selection := ⟨⟨"Index", .named "Vec" [] [.var 0], [.var 1],
    [⟨.var 0, [.parameterized "Into" [.var 2]]⟩], []⟩,
    ⟨[(7, .prim "u64"), (6, .var 5)]⟩, ⟨9⟩, [(2, 8), (1, 7), (0, 6)]⟩
  have hrun : (Registry.select ⟨indexed, []⟩ 3 "Index" t []).map Prod.snd = some (.ok sel) := by
    cbv
  obtain ⟨⟨r', outcome⟩, hrun, rfl⟩ := Option.map_eq_some_iff.mp hrun
  have hroom : (Implementation.headerOf t [.prim "u64"]).LeavesRoom
      (.tuple (sel.implementation.types ++ ts)) := by
    have hlength : (Ty.tuple (sel.implementation.types ++ ts)).freeVars.length = 4 := by
      cbv
    have hvars : (Implementation.headerOf t [.prim "u64"]).vars = [5] := rfl
    rw [Ty.LeavesRoom, hlength, hvars, List.forall_mem_singleton]
    decide
  have hts : (sel.instantiateAll ts).1 = [.tuple [.var 9, .var 5, .var 8], .var 9] := by
    cbv
  obtain ⟨cap, filled, hfind, hargs, hinst⟩ := select_instantiates hrun
  -- the capability is the one that is declared, and its argument is the default
  obtain rfl : ⟨"Index", [⟨"I", .inv, [], some (.prim "u64")⟩], [], [], []⟩ = cap :=
    Option.some.inj hfind
  obtain rfl : [.prim "u64"] = filled := Except.ok.inj hargs
  obtain ⟨htype, hfilled, -, τ, hτ, hother⟩ := hinst ts hroom
  obtain ⟨w, hw, hnot, -⟩ := hother _ List.mem_cons_self 2 (by simp [Ty.vars])
    (by simp [sel, Implementation.header, Implementation.headerOf, Ty.vars])
  exact ⟨r', sel, hrun, hroom, hts, htype, hfilled, τ, hτ, w, hw, hnot⟩

end Registry

end Generics
