import Generics.Proofs.Capability.Instantiation
import Generics.Proofs.Session.Issued

/-!
# Variables of a projected type

An associated type is written with the generics of its implementation. Those of the header stand for
parts of the type that is projected. All others get names, and these are numbered on from the variables
of that type alone: the counter of the session has no part in them. So a name may be a variable that the
session has issued for something else.

The variables of the header, of the conditions and of the associated type get their names in this order,
which tells for each of them whether its name is a variable of the session.

## Main results

* `Selection.map_fst_instantiateAll`: variables get names in the order in which they come;
* `Session.project_eq_ok`: how an associated type is found;
* `Selection.mem_vars_projected`: the variables of a projected type;
* `Session.project_hygienic_iff`: when a projected type has no variable that was issued for something
  else.
-/

namespace Generics

/-- The variables of an implementation and one of its associated types in the order in which they get
names. -/
def Implementation.order (i : Implementation) (assoc : Ty) : List VarId :=
  ((i.types ++ [assoc]).flatMap Ty.vars).eraseDups

/-- The number of the name of a variable, when the implementation is selected for the target. -/
def Implementation.nameOf (i : Implementation) (target assoc : Ty) (v : VarId) : Nat :=
  (Fresher.after [target]).next.toNat + (i.order assoc).idxOf v

/-- Each variable of the type occurs in another type or was not issued. -/
def Ty.Hygienic (u t : Ty) (issued : List VarId) : Prop := ∀ w ∈ u.vars, w ∈ t.vars ∨ w ∉ issued

namespace Selection

/-! ## The order of names -/

/-- A use gives names to the variables of the type that come for the first time. -/
theorem map_fst_instantiate {sel : Selection} {done : List VarId}
    (h : (sel.names.map Prod.fst).reverse = done.eraseDups) (t : Ty) :
    ((sel.instantiate t).2.names.map Prod.fst).reverse = (done ++ t.vars).eraseDups := by
  rw [instantiate_cover]
  exact Fresher.map_fst_cover h t.vars

/-- Types that are used one after the other have their variables named in this order. -/
theorem map_fst_instantiateAll {sel : Selection} {done : List VarId}
    (h : (sel.names.map Prod.fst).reverse = done.eraseDups) (ts : List Ty) :
    ((sel.instantiateAll ts).2.names.map Prod.fst).reverse =
      (done ++ ts.flatMap Ty.vars).eraseDups := by
  induction ts generalizing sel done with
  | nil =>
    rw [List.flatMap_nil, List.append_nil]
    exact h
  | cons t ts ih =>
    rw [List.flatMap_cons, ← List.append_assoc]
    exact ih (map_fst_instantiate h t)

/-- A selection starts with names for the variables of the header. -/
theorem map_fst_of_of? {i : Implementation} {target : Ty} {sel : Selection}
    (h : of? i target = some sel) :
    (sel.names.map Prod.fst).reverse = i.header.vars.eraseDups := by
  simp only [of?, Fresher.renameApart_eq] at h
  split at h
  · obtain rfl := Option.some.inj h
    have hnil : (([] : Renaming).map Prod.fst).reverse = ([] : List VarId).eraseDups := rfl
    exact Fresher.map_fst_cover hnil i.header.vars
  · cases h

/-! ## The variables of a projected type -/

/-- The associated type as it is instantiated after the conditions of the implementation. -/
def projected (sel : Selection) (assoc : Ty) : Ty :=
  ((sel.instantiateAll sel.implementation.clauseTypes).2.instantiate assoc).1

/-- The selection after that. -/
def spent (sel : Selection) (assoc : Ty) : Selection :=
  ((sel.instantiateAll sel.implementation.clauseTypes).2.instantiate assoc).2

theorem implementation_spent (sel : Selection) (assoc : Ty) :
    (sel.spent assoc).implementation = sel.implementation :=
  ((sel.precedes_instantiateAll _).trans (precedes_instantiate _ assoc)).implementation

theorem projected_eq (sel : Selection) (assoc : Ty) :
    sel.projected assoc = assoc.subst (sel.spent assoc).assignment :=
  instantiate_eq _ assoc

theorem isSome_lookup_spent (sel : Selection) {assoc : Ty} {v : VarId} (hv : v ∈ assoc.vars) :
    ((sel.spent assoc).names.lookup v).isSome = true :=
  isSome_lookup_instantiate _ assoc v hv

section

variable {target : Ty} {sel : Selection} (hof : of? sel.implementation target = some sel)
include hof

theorem map_fst_spent (assoc : Ty) :
    ((sel.spent assoc).names.map Prod.fst).reverse = sel.implementation.order assoc := by
  have hclauses := map_fst_instantiateAll (map_fst_of_of? hof) sel.implementation.clauseTypes
  rw [Implementation.order, Implementation.types, List.flatMap_append, List.flatMap_cons,
    List.flatMap_singleton]
  exact map_fst_instantiate hclauses assoc

/-- Only variables of the header, the conditions and the associated type get names. -/
theorem inUse_spent (assoc : Ty) :
    (sel.spent assoc).InUse target (.tuple (sel.implementation.types ++ [assoc])) := by
  have hall : ∀ u ∈ sel.implementation.types ++ [assoc], ∀ v ∈ u.vars,
      v ∈ (Ty.tuple (sel.implementation.types ++ [assoc])).vars := by
    intro u hu v hv
    rw [Ty.vars, Ty.varsList_eq_flatMap]
    exact List.mem_flatMap.mpr ⟨u, hu, hv⟩
  obtain ⟨htypes, hassoc⟩ := List.forall_mem_append.mp hall
  obtain ⟨hheader, hclauses⟩ := List.forall_mem_cons.mp htypes
  exact ((inUse_of_of? hof hheader).instantiateAll hclauses).instantiate
    (List.forall_mem_singleton.mp hassoc)

variable {assoc : Ty} (hroom : target.LeavesRoom (.tuple (sel.implementation.types ++ [assoc])))
include hroom

/-- Each variable of the associated type has the name of its place in the order. -/
theorem toNat_image_spent {v : VarId} (hv : v ∈ assoc.vars) :
    ((sel.spent assoc).names.image v).toNat = sel.implementation.nameOf target assoc v := by
  have hused := inUse_spent hof assoc
  have hmem := Fresher.mem_map_fst_of_lookup
    (Fresher.lookup_eq_image (sel.isSome_lookup_spent hv))
  have hlookup := hused.issued.lookup_eq hmem
  rw [map_fst_spent hof assoc] at hlookup
  have hsize := (hused.issued.room hroom hused.keys hmem).2
  have hlt : (sel.implementation.order assoc).idxOf v < (sel.spent assoc).names.length := by
    rw [← map_fst_spent hof assoc]
    simpa using List.idxOf_lt_length_of_mem (List.mem_reverse.mpr hmem)
  rw [Renaming.image, hlookup, Option.getD_some, UInt64.toNat_ofNat_of_lt' (by omega)]
  rfl

/-- The variables of a projected type are variables of the target and the names of variables that are
not in the header. -/
theorem mem_vars_projected {w : VarId} (hw : w ∈ (sel.projected assoc).vars) :
    w ∈ target.vars ∨ ∃ v ∈ assoc.vars, v ∉ sel.implementation.header.vars ∧
      w.toNat = sel.implementation.nameOf target assoc v := by
  have hused := inUse_spent hof assoc
  rw [projected_eq] at hw
  obtain ⟨v, hv, hw⟩ := Ty.mem_vars_subst.mp hw
  -- a variable of the header stands for a part of the target, any other one for its name
  by_cases hheader : v ∈ sel.implementation.header.vars
  · rw [← sel.implementation_spent assoc] at hheader
    have hvar : ∀ x ∈ (Ty.var v).vars, x ∈ (sel.spent assoc).implementation.header.vars := by
      simpa [Ty.vars] using hheader
    refine .inl (hused.mem_vars_instantiate hroom hvar ?_)
    rw [hused.instantiate_eq hvar]
    exact hw
  · have hassignment := hused.assignment_eq_var hroom
      (by rwa [sel.implementation_spent assoc]) (sel.isSome_lookup_spent hv)
    refine .inr ⟨v, hv, hheader, ?_⟩
    rw [hassignment] at hw
    rw [← toNat_image_spent hof hroom hv, List.mem_singleton.mp hw]

/-- All these names are there, and they are no variables of the target. -/
theorem exists_mem_vars_projected {v : VarId} (hv : v ∈ assoc.vars)
    (hother : v ∉ sel.implementation.header.vars) :
    ∃ w ∈ (sel.projected assoc).vars, w ∉ target.vars ∧
      w.toNat = sel.implementation.nameOf target assoc v := by
  have hused := inUse_spent hof assoc
  have hnamed := sel.isSome_lookup_spent hv
  refine ⟨(sel.spent assoc).names.image v, ?_, ?_, toNat_image_spent hof hroom hv⟩
  · rw [projected_eq, Ty.mem_vars_subst]
    refine ⟨v, hv, ?_⟩
    rw [hused.assignment_eq_var hroom (by rwa [sel.implementation_spent assoc]) hnamed]
    exact List.mem_singleton_self _
  · exact hused.issued.notMem_vars hroom hused.keys (Fresher.lookup_eq_image hnamed)

end

end Selection

/-! ## Projection -/

/-- An associated type is that of the first implementation that matches. -/
theorem Catalog.ensures_projected (c : Catalog) (depth : Nat) (capability : String) (t : Ty)
    (name : String) :
    CheckM.Ensures (fun _ => True) (c.associatedType depth capability t name) fun outcome =>
      ∀ u, outcome = .ok u → ∃ cap filled sel assoc, c.find? capability = some cap ∧
        cap.fillArgs [] = .ok filled ∧ c.FirstMatch cap.name t filled sel ∧
        sel.implementation.associated.lookup name = some assoc ∧ u = sel.projected assoc := by
  refine CheckM.Ensures.lift_bind (fun cap hfind => ?_) fun _ _ u h => by cases h
  simp only
  split
  · exact CheckM.ensures_throw fun u h => by cases h
  · refine CheckM.Ensures.bind (c.ensures_select depth capability t [])
      (fun used hselect => ?_) fun _ _ u h => by cases h
    obtain ⟨cap, filled, sel, hfind, hargs, hmatch, rfl⟩ := hselect used rfl
    rw [(sel.precedes_instantiateAll _).implementation]
    split
    · rename_i assoc hassoc
      refine CheckM.ensures_pure fun u hu => ?_
      obtain rfl := Except.ok.inj hu
      exact ⟨cap, filled, sel, assoc, hfind, hargs, hmatch, hassoc, rfl⟩
    · exact CheckM.ensures_throw fun u h => by cases h

namespace Session

/-- How an associated type is found. -/
theorem project_eq_ok {s s' : Session} {depth : Nat} {origin : Origin} {capability : String} {t u : Ty}
    {name : String} (h : s.project depth origin capability t name = some (s', .ok u)) :
    ∃ cap filled sel assoc, s.registry.catalog.find? capability = some cap ∧
      cap.fillArgs [] = .ok filled ∧
      s.registry.catalog.FirstMatch cap.name (s.apply t) filled sel ∧
      sel.implementation.associated.lookup name = some assoc ∧ u = sel.projected assoc := by
  unfold project at h
  obtain ⟨⟨registry, outcome⟩, hrun, hconclude⟩ := Option.bind_eq_some_iff.mp h
  cases outcome with
  | error e => cases Option.some.inj hconclude
  | ok projected =>
    obtain rfl : projected = u := Except.ok.inj (congrArg Prod.snd (Option.some.inj hconclude))
    unfold Registry.associatedType Registry.run at hrun
    obtain ⟨⟨outcome, cache⟩, hchecked, hreturn⟩ := Option.bind_eq_some_iff.mp hrun
    obtain ⟨-, rfl⟩ := Prod.mk.inj (Option.some.inj hreturn)
    exact (Catalog.ensures_projected _ _ _ _ _ _ _ _ trivial hchecked).2 projected rfl

/-- A successful projection, at any point of a run, captures no variable if and only if all variables
that the session has issued come before the names of those that only the associated type has.
After the variables of the type that is projected there have to be numbers left for the names, and the
defaults of the capability must have no variables. -/
theorem project_hygienic_iff {registry : Registry} {aliases : Aliases} {before : List Request}
    {s s' : Session} {depth : Nat} {origin : Origin} {capability name : String} {t u : Ty}
    (hrun : serveAll { registry, aliases } before = some s)
    (hproject : s.project depth origin capability t name = some (s', .ok u)) :
    ∃ cap filled sel assoc, s.registry.catalog.find? capability = some cap ∧
      cap.fillArgs [] = .ok filled ∧
      s.registry.catalog.FirstMatch cap.name (s.apply t) filled sel ∧
      sel.implementation.associated.lookup name = some assoc ∧
      let target := Implementation.headerOf (s.apply t) filled
      (target.LeavesRoom (.tuple (sel.implementation.types ++ [assoc])) →
        (∀ w ∈ u.vars, w ∈ target.vars ∨ ∃ v ∈ assoc.vars, v ∉ sel.implementation.header.vars ∧
          w.toNat = sel.implementation.nameOf target assoc v) ∧
        ((∀ a ∈ filled, a.vars = []) →
          (u.Hygienic (s.apply t) (issuedAlong { registry, aliases } before) ↔
            ∀ v ∈ assoc.vars, v ∉ sel.implementation.header.vars →
              ∀ w ∈ issuedAlong { registry, aliases } before,
                w.toNat < sel.implementation.nameOf target assoc v))) := by
  obtain ⟨cap, filled, sel, assoc, hfind, hargs, hmatch, hassoc, rfl⟩ := project_eq_ok hproject
  refine ⟨cap, filled, sel, assoc, hfind, hargs, hmatch, hassoc, fun hroom => ?_⟩
  obtain ⟨-, -, -, hof, -⟩ := hmatch
  refine ⟨fun w hw => Selection.mem_vars_projected hof hroom hw, fun hclosed => ?_⟩
  have htarget : ∀ w, w ∈ (Implementation.headerOf (s.apply t) filled).vars ↔
      w ∈ (s.apply t).vars := by
    intro w
    rw [Implementation.headerOf, Ty.vars, Ty.varsList_eq_flatMap, List.flatMap_cons,
      List.flatMap_eq_nil_iff.mpr hclosed, List.append_nil]
  obtain ⟨n, -, hissued⟩ := exists_issued hrun
  constructor
  · -- a name is not a variable of the target, so it was not issued
    intro hhygienic v hv hother w hw
    obtain ⟨x, hx, hnot, hname⟩ := Selection.exists_mem_vars_projected hof hroom hv hother
    rw [htarget] at hnot
    have hnew := (hhygienic x hx).resolve_left hnot
    rw [hissued] at hnew hw
    omega
  · intro hbelow w hw
    rcases Selection.mem_vars_projected hof hroom hw with hw | ⟨v, hv, hother, hname⟩
    · exact .inl ((htarget w).mp hw)
    · refine .inr fun hmem => ?_
      exact absurd (hbelow v hv hother w hmem) (by omega)

/-- Two implementations of which the associated type has a variable that the header has not. -/
def iterating : Registry :=
  let declared := (Registry.declare {} ⟨"Iterator", [], ["Item"], [], []⟩).1
  let first := (declared.implement
    ⟨"Iterator", .named "Vec" [] [.var 0], [], [], [("Item", .tuple [.var 0, .var 7])]⟩).1
  (first.implement ⟨"Iterator", .prim "u8", [], [], [("Item", .named "Vec" [] [.var 0])]⟩).1

/-- The one variable issued is in the type that is projected, and the name comes after it. -/
theorem project_hygienic_of_fresh :
    let t : Ty := .named "Vec" [] [.var 0]
    let u : Ty := .tuple [.var 0, .var 2]
    ∃ s s', serveAll { registry := iterating, aliases := .empty } [.fresh] = some s ∧
      s.project 2 { construct := "fn f" } "Iterator" t "Item" = some (s', .ok u) ∧
      u.Hygienic (s.apply t) (issuedAlong { registry := iterating, aliases := .empty } [.fresh]) := by
  intro t u
  let s : Session := { registry := iterating, aliases := .empty, fresher := ⟨1⟩ }
  have hrun : serveAll { registry := iterating, aliases := .empty } [.fresh] = some s := rfl
  have hproject : (s.project 2 { construct := "fn f" } "Iterator" t "Item").map Prod.snd =
      some (.ok u) := by
    cbv
  obtain ⟨⟨s', outcome⟩, hproject, rfl⟩ := Option.map_eq_some_iff.mp hproject
  refine ⟨s, s', hrun, hproject, ?_⟩
  obtain ⟨cap, filled, sel, assoc, hfind, hargs, hmatch, hassoc, hiff⟩ :=
    project_hygienic_iff hrun hproject
  -- the implementation is the first one, and the capability has no parameters
  have hselect : iterating.catalog.select? "Iterator" t [] = some ⟨⟨"Iterator", t, [], [],
      [("Item", .tuple [.var 0, .var 7])]⟩, ⟨[(1, .var 0)]⟩, ⟨2⟩, [(0, 1)]⟩ := by
    cbv
  have hdeclared : iterating.catalog.find? "Iterator" = some ⟨"Iterator", [], ["Item"], [], []⟩ := by
    cbv
  obtain rfl := Option.some.inj (hdeclared.symm.trans hfind)
  obtain rfl : [] = filled := Except.ok.inj hargs
  obtain rfl := (Catalog.select?_eq_some_iff.mp hselect).unique hmatch
  obtain rfl : Ty.tuple [.var 0, .var 7] = assoc := Option.some.inj hassoc
  refine ((hiff ?_).2 (by simp)).mpr ?_
  · have hlength : (Ty.tuple [.tuple [t], .tuple [.var 0, .var 7]]).freeVars.length = 2 := by cbv
    have hvars : (Implementation.headerOf (s.apply t) []).vars = [0] := rfl
    show Ty.LeavesRoom _ (Ty.tuple [.tuple [t], .tuple [.var 0, .var 7]])
    rw [Ty.LeavesRoom, hlength, hvars, List.forall_mem_singleton]
    decide
  · have hissued : issuedAlong { registry := iterating, aliases := .empty } [.fresh] = [0] := rfl
    have hname : Implementation.nameOf ⟨"Iterator", t, [], [], [("Item", .tuple [.var 0, .var 7])]⟩
        (Implementation.headerOf (s.apply t) []) (.tuple [.var 0, .var 7]) 7 = 2 := by cbv
    intro v hv hother w hw
    rw [hissued, List.mem_singleton] at hw
    obtain rfl | rfl : v = 0 ∨ v = 7 := by simpa [Ty.vars] using hv
    · exact absurd (by simp [t, Implementation.header, Implementation.headerOf, Ty.vars]) hother
    · rw [hname, hw]
      decide

/-- A projection captures the variable that the session issued for something else. -/
theorem project_captures :
    ∃ s s', serveAll { registry := iterating, aliases := .empty } [.fresh] = some s ∧
      s.project 2 { construct := "fn f" } "Iterator" (.prim "u8") "Item" =
        some (s', .ok (.named "Vec" [] [.var 0])) ∧
      ¬ (Ty.named "Vec" [] [.var 0]).Hygienic (s.apply (.prim "u8"))
        (issuedAlong { registry := iterating, aliases := .empty } [.fresh]) := by
  let s : Session := { registry := iterating, aliases := .empty, fresher := ⟨1⟩ }
  have hproject : (s.project 2 { construct := "fn f" } "Iterator" (.prim "u8") "Item").map Prod.snd =
      some (.ok (.named "Vec" [] [.var 0])) := by
    cbv
  obtain ⟨⟨s', outcome⟩, hproject, rfl⟩ := Option.map_eq_some_iff.mp hproject
  refine ⟨s, s', rfl, hproject, fun h => ?_⟩
  have hvars : (s.apply (.prim "u8")).vars = [] := rfl
  have hissued : (0 : VarId) ∈ issuedAlong { registry := iterating, aliases := .empty } [.fresh] :=
    List.mem_cons_self
  rcases h 0 (by simp [Ty.vars]) with hmem | hnew
  · rw [hvars] at hmem
    cases hmem
  · exact hnew hissued

end Session

end Generics
