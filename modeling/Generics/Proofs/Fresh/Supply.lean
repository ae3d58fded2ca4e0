import Generics.Proofs.Evaluation
import Generics.Proofs.Fresh
import Generics.Proofs.Ty.Returns

/-!
# Renaming types one after the other

One supply serves any number of requests for fresh variables and for renamed types, and all types share
one renaming. A variable that has a name keeps it; one that has none gets the next number. Old and new
variables are numbers alike, so a new name may well be a variable of a type that is renamed later.

What a renamed type is does not refer to how it is made: `Renaming.Carries` relates a type to the one
with new names node by node, and `Ty.withReturns` writes out absent return types, which is the only
other change.

## Main results

* `Renaming.carries_subst` and `Renaming.Carries.eq_iff`: what renaming makes of a type, and that an
  injective renaming keeps different types different;
* `Fresher.Supply.Consistent`: the invariant of a supply, which giving out one variable preserves;
* `Fresher.Supply.serveAll_renames_injectively`: what holds after any sequence of requests.
-/

namespace Generics

/-! ## Renamed types -/

namespace Renaming

/-- The second type is the first with the new name of each variable in its place, and else the
same. -/
inductive Carries (r : Renaming) : Ty → Ty → Prop
  | prim (name : String) : Carries r (.prim name) (.prim name)
  | var {v w : VarId} (h : r.lookup v = some w) : Carries r (.var v) (.var w)
  | tuple {ts us : List Ty} (h : List.Forall₂ (Carries r) ts us) : Carries r (.tuple ts) (.tuple us)
  | array {t u : Ty} (size : UInt64) (h : Carries r t u) : Carries r (.array t size) (.array u size)
  | ref {t u : Ty} (region : Region) (isMut : Bool) (h : Carries r t u) :
    Carries r (.ref region isMut t) (.ref region isMut u)
  | ptr {t u : Ty} (isMut : Bool) (h : Carries r t u) : Carries r (.ptr isMut t) (.ptr isMut u)
  | fn {ts us : List Ty} {t u : Ty} (hparams : List.Forall₂ (Carries r) ts us)
      (hret : Carries r t u) : Carries r (.fn ts (some t)) (.fn us (some u))
  | named {ts us : List Ty} (name : String) (regions : List Region)
      (h : List.Forall₂ (Carries r) ts us) :
    Carries r (.named name regions ts) (.named name regions us)

variable {r : Renaming}

/-- Replacing each variable by its new name is such a type, once all returns are written. -/
theorem carries_subst {t : Ty} (h : ∀ v ∈ t.vars, (r.lookup v).isSome = true) :
    r.Carries t.withReturns (t.subst fun v => .var (r.image v)) := by
  -- elements, parameters and arguments alike
  have hlist {ts : List Ty} (hts : ∀ v ∈ ts.flatMap Ty.vars, (r.lookup v).isSome = true)
      (ih : ∀ t ∈ ts, (∀ v ∈ t.vars, (r.lookup v).isSome = true) →
        r.Carries t.withReturns (t.subst fun v => .var (r.image v))) :
      List.Forall₂ r.Carries (ts.map Ty.withReturns) (ts.map (Ty.subst fun v => .var (r.image v))) := by
    rw [List.forall₂_map_left_iff, List.forall₂_map_right_iff, List.forall₂_same]
    exact fun t ht => ih t ht fun v hv => hts v (List.mem_flatMap.mpr ⟨t, ht, hv⟩)
  induction t with
  | prim name => exact .prim name
  | var id => exact .var (Fresher.lookup_eq_image (h id (by simp [Ty.vars])))
  | tuple elems ih =>
    simp only [Ty.vars, Ty.varsList_eq_flatMap] at h
    simpa [Ty.withReturns, Ty.subst] using Carries.tuple (hlist h ih)
  | array elem size ih => exact .array size (ih h)
  | ref region isMut inner ih => exact .ref region isMut (ih h)
  | ptr isMut inner ih => exact .ptr isMut (ih h)
  | fn params ret ih ihr =>
    cases ret with
    | none =>
      simp only [Ty.vars, Ty.varsList_eq_flatMap] at h
      simpa [Ty.withReturns, Ty.subst, Ty.unit] using Carries.fn (hlist h ih) (.tuple .nil)
    | some ret =>
      simp only [Ty.vars, Ty.varsList_eq_flatMap, List.mem_append, or_imp, forall_and] at h
      simpa [Ty.withReturns, Ty.subst] using Carries.fn (hlist h.1 ih) (ihr ret rfl h.2)
  | named name regions args ih =>
    simp only [Ty.vars, Ty.varsList_eq_flatMap] at h
    simpa [Ty.withReturns, Ty.subst] using Carries.named name regions (hlist h ih)

/-- Names that are given later change nothing. -/
theorem Carries.mono {r' : Renaming} (hkeep : ∀ v w, r.lookup v = some w → r'.lookup v = some w)
    {t u : Ty} (h : r.Carries t u) : r'.Carries t u := by
  have hlist {ts us : List Ty} (ih : ∀ t ∈ ts, ∀ {u}, r.Carries t u → r'.Carries t u)
      (hts : List.Forall₂ r.Carries ts us) : List.Forall₂ r'.Carries ts us :=
    ((List.forall₂_and_left ts us).mpr ⟨ih, hts⟩).imp fun _ _ h => h.1 h.2
  induction t generalizing u with
  | prim name => cases h; exact .prim name
  | var id => cases h with | var h => exact .var (hkeep _ _ h)
  | tuple elems ih => cases h with | tuple h => exact .tuple (hlist ih h)
  | array elem size ih => cases h with | array _ h => exact .array size (ih h)
  | ref region isMut inner ih => cases h with | ref _ _ h => exact .ref region isMut (ih h)
  | ptr isMut inner ih => cases h with | ptr _ h => exact .ptr isMut (ih h)
  | fn params ret ih ihr =>
    cases h with | fn hparams hret => exact .fn (hlist ih hparams) (ihr _ rfl hret)
  | named name regions args ih => cases h with | named _ _ h => exact .named name regions (hlist ih h)

/-- Different variables have different names. -/
def Injective (r : Renaming) : Prop :=
  ∀ v v' w, r.lookup v = some w → r.lookup v' = some w → v = v'

/-- Two types get the same form exactly when they are the same. -/
theorem Carries.eq_iff (hr : r.Injective) {t t' u u' : Ty} (h : r.Carries t u) (h' : r.Carries t' u') :
    u = u' ↔ t = t' := by
  have hlist {ts : List Ty} (ih : ∀ t ∈ ts, ∀ {t' u u'}, r.Carries t u → r.Carries t' u' →
      (u = u' ↔ t = t')) {us ts' us' : List Ty} (hts : List.Forall₂ r.Carries ts us)
      (hts' : List.Forall₂ r.Carries ts' us') : us = us' ↔ ts = ts' := by
    induction hts generalizing ts' us' with
    | nil => cases hts' <;> simp
    | cons hhead _ ihl =>
      cases hts' with
      | nil => simp
      | cons hhead' htail' =>
        obtain ⟨iht, ihts⟩ := List.forall_mem_cons.mp ih
        rw [List.cons.injEq, List.cons.injEq, iht hhead hhead', ihl ihts htail']
  -- the renamed form shows the kind of type, so that only types of one kind need to be compared
  induction t generalizing t' u u' with
  | prim name => cases h; cases h' <;> simp
  | var id =>
    cases h with | var h => ?_
    cases h' with
    | var h' =>
      rw [Ty.var.injEq, Ty.var.injEq]
      refine ⟨?_, ?_⟩
      · rintro rfl
        exact hr _ _ _ h h'
      · rintro rfl
        exact Option.some.inj (h.symm.trans h')
    | _ => simp
  | tuple elems ih =>
    cases h with | tuple h => ?_
    cases h' with
    | tuple h' => simp [hlist ih h h']
    | _ => simp
  | array elem size ih =>
    cases h with | array _ h => ?_
    cases h' with
    | array _ h' => simp [ih h h']
    | _ => simp
  | ref region isMut inner ih =>
    cases h with | ref _ _ h => ?_
    cases h' with
    | ref _ _ h' => simp [ih h h']
    | _ => simp
  | ptr isMut inner ih =>
    cases h with | ptr _ h => ?_
    cases h' with
    | ptr _ h' => simp [ih h h']
    | _ => simp
  | fn params ret ih ihr =>
    cases h with | fn hparams hret => ?_
    cases h' with
    | fn hparams' hret' => simp [hlist ih hparams hparams', ihr _ rfl hret hret']
    | _ => simp
  | named name regions args ih =>
    cases h with | named _ _ h => ?_
    cases h' with
    | named _ _ h' => simp [hlist ih h h']
    | _ => simp

end Renaming

namespace Fresher

/-! ## A supply at work -/

/-- What a supply is asked for. -/
inductive Request where
  | fresh
  | rename (t : Ty)

/-- The type that is to be renamed. -/
def Request.type? : Request → Option Ty
  | .fresh => none
  | .rename t => some t

/-- A supply with the renaming that all types share, and what it has given out so far, the latest
first. -/
structure Supply where
  fresher : Fresher
  names : Renaming := []
  /-- The variables that were asked for. -/
  issued : List VarId := []
  /-- The types that were to be renamed, each with its renamed form. -/
  renamed : List (Ty × Ty) := []

namespace Supply

/-- Serves one request. -/
def serve (s : Supply) : Request → Supply
  | .fresh =>
    let (v, fresher) := s.fresher.fresh
    { s with fresher, issued := v :: s.issued }
  | .rename t =>
    let (u, names, fresher) := s.fresher.renameApart s.names t
    { s with fresher, names, renamed := (t, u) :: s.renamed }

/-- Serves requests one after the other. -/
def serveAll (s : Supply) (requests : List Request) : Supply := requests.foldl serve s

/-- All variables given out: those that were asked for and the new names. -/
def givenOut (s : Supply) : List VarId := s.issued ++ s.names.map Prod.snd

/-- The variables given out are the numbers from `start` on, counted around, the supply is at the next
one, and every type was renamed by the names there are now. -/
structure Consistent (start : Nat) (s : Supply) : Prop where
  next : s.fresher.next = .ofNat (start + s.givenOut.length)
  numbers : s.givenOut.Perm ((List.range s.givenOut.length).map fun k => .ofNat (start + k))
  carried : ∀ p ∈ s.renamed, s.names.Carries p.1.withReturns p.2

variable {start : Nat} {s : Supply}

theorem consistent_new (f : Fresher) : Consistent f.next.toNat { fresher := f } where
  next := by simp [givenOut]
  numbers := by simp [givenOut]
  carried := by simp

/-- Giving out one more variable keeps a supply consistent, whatever the variable is used for. -/
theorem Consistent.giveOut (h : Consistent start s) {s' : Supply}
    (hfresher : s'.fresher = s.fresher.fresh.2)
    (hout : s'.givenOut.Perm (s.fresher.next :: s.givenOut))
    (hcarried : ∀ p ∈ s'.renamed, s'.names.Carries p.1.withReturns p.2) : Consistent start s' := by
  have hlength : s'.givenOut.length = s.givenOut.length + 1 := hout.length_eq
  refine ⟨?_, ?_, hcarried⟩
  · rw [hfresher, hlength]
    exact next_fresh h.next
  · rw [hlength, List.range_succ, List.map_append, List.map_singleton, ← h.next]
    exact hout.trans ((h.numbers.cons _).trans (List.perm_append_singleton _ _).symm)

/-- Naming variables that have no name yet keeps a supply consistent. -/
theorem Consistent.cover (h : Consistent start s) (vs : List VarId) :
    Consistent start { s with
      names := (s.fresher.cover s.names vs).1, fresher := (s.fresher.cover s.names vs).2 } := by
  refine cover_induction (P := fun r f => Consistent start { s with names := r, fresher := f })
    (fun r f v hv h => h.giveOut rfl List.perm_middle fun p hp => ?_) h vs
  -- the variable had no name, so that the types named before do not have it
  exact (h.carried p hp).mono fun x w hx => lookup_cons_of_lookup hx hv

/-- One request keeps a supply consistent. -/
theorem Consistent.serve (h : Consistent start s) (r : Request) : Consistent start (s.serve r) := by
  cases r with
  | fresh => exact h.giveOut rfl (.refl _) h.carried
  | rename t =>
    have hcover := h.cover t.vars
    rw [Supply.serve, renameApart_eq]
    refine ⟨hcover.next, hcover.numbers, List.forall_mem_cons.mpr ⟨?_, hcover.carried⟩⟩
    exact Renaming.carries_subst (s.fresher.isSome_lookup_cover s.names t.vars)

/-- Any number of requests keeps a supply consistent. -/
theorem Consistent.serveAll (h : Consistent start s) (requests : List Request) :
    Consistent start (s.serveAll requests) := by
  induction requests generalizing s with
  | nil => exact h
  | cons r rs ih => exact ih (h.serve r)

/-- Every type that is to be renamed gets a renamed form. -/
theorem map_fst_renamed_serveAll (s : Supply) (requests : List Request) :
    ((s.serveAll requests).renamed.map Prod.fst).reverse =
      (s.renamed.map Prod.fst).reverse ++ requests.filterMap Request.type? := by
  induction requests generalizing s with
  | nil => simp [serveAll]
  | cons r rs ih =>
    refine (ih (s.serve r)).trans ?_
    cases r <;> simp [serve, renameApart, Request.type?, Fresher.fresh, List.filterMap_cons]

/-- A supply that starts after the types `ts`, and so at variable 0 if there are none, is asked for
fresh variables and to rename types, any number of times and in any order. As long as its counter does
not wrap around, neither when it starts nor later, different variables have different names, no
variable is given out twice, and none that is given out is one of `ts`. Every type gets a renamed form,
which has the names that the variables have in the end and else only differs in that all returns are
written; two of these forms are the same exactly when the types were, up to their returns. -/
theorem serveAll_renames_injectively (ts : List Ty) (requests : List Request)
    (hstart : ∀ v ∈ Ty.varsList ts, v.toNat + 1 < UInt64.size)
    (hroom : (after ts).next.toNat +
      (serveAll { fresher := after ts } requests).givenOut.length ≤ UInt64.size) :
    let s := serveAll { fresher := after ts } requests
    s.names.Injective ∧ s.givenOut.Nodup ∧ (∀ w ∈ s.givenOut, w ∉ Ty.varsList ts) ∧
      (s.renamed.map Prod.fst).reverse = requests.filterMap Request.type? ∧
      (∀ p ∈ s.renamed, s.names.Carries p.1.withReturns p.2) ∧
      ∀ p ∈ s.renamed, ∀ q ∈ s.renamed, p.2 = q.2 ↔ p.1.withReturns = q.1.withReturns := by
  intro s
  have hs : Consistent (after ts).next.toNat s := (consistent_new (after ts)).serveAll requests
  have hnodup : s.givenOut.Nodup := hs.numbers.nodup_iff.mpr (nodup_map_range hroom)
  have hinjective : s.names.Injective := fun _ _ _ =>
    eq_of_lookup_of_nodup (hnodup.sublist (List.sublist_append_right _ _))
  refine ⟨hinjective, hnodup, fun w hw hwts => ?_, ?_, hs.carried, fun p hp q hq => ?_⟩
  · -- the variables of `ts` lie before the first number, those given out do not
    have hlt := lt_next_after hstart w hwts
    have hle := le_toNat_of_mem_range hroom (hs.numbers.mem_iff.mp hw)
    omega
  · exact map_fst_renamed_serveAll { fresher := after ts } requests
  · exact (hs.carried p hp).eq_iff hinjective (hs.carried q hq)

/-- The variable `9` of the last type is older than the new name `9`; the types differ in their order
of variables, and the first lacks a return type. -/
theorem serveAll_renames_injectively_of_overlap :
    let ts : List Ty := [.tuple [.var 3, .var 8]]
    let requests : List Request := [.rename (.fn [.var 0, .var 1] none), .fresh,
      .rename (.fn [.var 9, .var 0] (some .unit))]
    let s := serveAll { fresher := after ts } requests
    s.names = [(9, 12), (1, 10), (0, 9)] ∧ s.issued = [11] ∧
      s.renamed.map Prod.snd =
        [.fn [.var 12, .var 9] (some .unit), .fn [.var 9, .var 10] (some .unit)] ∧
      s.names.Injective ∧ s.givenOut.Nodup := by
  intro ts requests s
  have hafter : after ts = ⟨9⟩ := by
    unfold ts
    cbv
  have hs : s = serveAll ⟨⟨9⟩, [], [], []⟩ requests := by rw [← hafter]
  have hspec := serveAll_renames_injectively ts requests (by simp [ts, Ty.vars, UInt64.size])
    (by rw [hafter]; unfold requests; decide)
  refine ⟨?_, ?_, ?_, hspec.1, hspec.2.1⟩ <;> rw [hs] <;> rfl

end Supply

end Fresher

end Generics
