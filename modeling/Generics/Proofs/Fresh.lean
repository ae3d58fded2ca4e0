import Generics.Fresh
import Generics.Proofs.Except
import Generics.Subst.Unify
import Mathlib.Data.List.Nodup
import Mathlib.Data.Set.Operations

/-!
# Renaming apart

The supply of fresh variables starts after the variables of one type and gives new names to those of
another. Its counter has 64 bits. As long as enough numbers are left, the new names differ from each
other and from all variables of the first type; `Ty.LeavesRoom` says that this is so.

## Main results

* `Fresher.foldl_skip_spec`: where the supply starts;
* `Fresher.Issued.cover` and `Fresher.isSome_lookup_cover`: which names it gives, and to what;
* `Fresher.map_fst_cover` and `Fresher.Issued.lookup_eq`: the names follow the order in which the
  variables come;
* `Fresher.Issued.notMem_vars` and `Fresher.Issued.eq_of_lookup`: as long as numbers are left, the
  names are new and different;
* `Fresher.renameApart_eq`: to rename a type in one pass is to name its variables first;
* `Fresher.exists_renaming`: the renamed type shares no variable with the type it was renamed apart
  from, and no two variables get the same name;
* `Fresher.mem_vars_renameAlone`: which variables a renamed type has, also when the counter wraps
  around.
-/

namespace Generics

/-- After the variables of `t` there are numbers left for all variables of `pattern`, so that the
counter does not wrap around when `pattern` is renamed apart from `t`. -/
def Ty.LeavesRoom (t pattern : Ty) : Prop :=
  ∀ v ∈ t.vars, v.toNat + pattern.freeVars.length < UInt64.size

instance (t pattern : Ty) : Decidable (t.LeavesRoom pattern) := List.decidableBAll _ t.vars

/-! ## Distinct variables -/

namespace Ty

/-- The free variables of a type are those that occur in it. -/
theorem mem_freeVars {t : Ty} {v : VarId} : v ∈ t.freeVars ↔ v ∈ t.vars := by
  rw [freeVars, List.mem_mergeSort, List.mem_eraseDups]

/-- A free variable is listed once. -/
theorem nodup_freeVars (t : Ty) : t.freeVars.Nodup := by
  rw [freeVars, (List.mergeSort_perm _ _).nodup_iff]
  exact nodup_eraseDups t.vars

/-- There are no more distinct variables than there are numbers. -/
theorem length_le_of_nodup {vs : List VarId} (h : vs.Nodup) : vs.length ≤ UInt64.size := by
  have hnodup : (vs.map UInt64.toNat).Nodup := h.map fun _ _ => UInt64.toNat_inj.mp
  have hsubset : vs.map UInt64.toNat ⊆ List.range UInt64.size := by
    intro n hn
    obtain ⟨v, -, rfl⟩ := List.mem_map.mp hn
    exact List.mem_range.mpr v.toNat_lt_size
  simpa using hnodup.length_le_of_subset hsubset

/-- There are no more free variables than identifiers. -/
theorem length_freeVars_le (t : Ty) : t.freeVars.length ≤ UInt64.size :=
  length_le_of_nodup t.nodup_freeVars

end Ty

/-- The new name of a variable; one without a new name keeps its own. -/
def Renaming.image (r : Renaming) (v : VarId) : VarId := (r.lookup v).getD v

namespace Fresher

/-! ## Where the supply starts -/

/-- Skipping a variable moves the counter past it and not back. -/
theorem skip_spec {f : Fresher} {v : VarId} {n : Nat} (hpos : 0 < n)
    (hv : v.toNat + n < UInt64.size) (hf : f.next.toNat + n ≤ UInt64.size) :
    f.next.toNat ≤ (f.skip v).next.toNat ∧ v.toNat < (f.skip v).next.toNat ∧
      (f.skip v).next.toNat + n ≤ UInt64.size := by
  unfold skip
  split
  · rename_i hle
    have hle : f.next.toNat ≤ v.toNat := UInt64.le_iff_toNat_le.mp hle
    have hnext : (v + 1).toNat = v.toNat + 1 := by
      rw [UInt64.toNat_add, UInt64.toNat_one]
      exact Nat.mod_eq_of_lt (by simp only [UInt64.size] at hv; omega)
    rw [hnext]
    omega
  · rename_i hlt
    have hlt : v.toNat < f.next.toNat := by
      rw [UInt64.le_iff_toNat_le] at hlt
      omega
    exact ⟨Nat.le_refl _, hlt, hf⟩

/-- With `n` numbers left after each of the variables, the supply starts after all of them and has
`n` numbers left. -/
theorem foldl_skip_spec {vs : List VarId} {f : Fresher} {n : Nat} (hpos : 0 < n)
    (hvs : ∀ v ∈ vs, v.toNat + n < UInt64.size) (hf : f.next.toNat + n ≤ UInt64.size) :
    f.next.toNat ≤ (vs.foldl skip f).next.toNat ∧
      (∀ v ∈ vs, v.toNat < (vs.foldl skip f).next.toNat) ∧
      (vs.foldl skip f).next.toNat + n ≤ UInt64.size := by
  induction vs generalizing f with
  | nil => simpa using hf
  | cons v vs ih =>
    obtain ⟨hv, hvs⟩ := List.forall_mem_cons.mp hvs
    obtain ⟨hmono, hpast, hleft⟩ := skip_spec hpos hv hf
    obtain ⟨hmono', hpast', hleft'⟩ := ih hvs hleft
    rw [List.foldl_cons]
    refine ⟨by omega, List.forall_mem_cons.mpr ⟨by omega, hpast'⟩, hleft'⟩

/-- With enough numbers left, the supply starts after all variables of the type. -/
theorem after_spec {t pattern : Ty} (hroom : t.LeavesRoom pattern)
    (hpos : 0 < pattern.freeVars.length) :
    (∀ v ∈ t.vars, v.toNat < (after [t]).next.toNat) ∧
      (after [t]).next.toNat + pattern.freeVars.length ≤ UInt64.size := by
  have hvs : ∀ v ∈ [t].flatMap Ty.freeVars, v ∈ t.vars := by simp [Ty.mem_freeVars]
  have hnew : new.next.toNat + pattern.freeVars.length ≤ UInt64.size := by
    simpa [new] using pattern.length_freeVars_le
  obtain ⟨-, hpast, hleft⟩ := foldl_skip_spec hpos (fun v hv => hroom v (hvs v hv)) hnew
  refine ⟨fun v hv => hpast v ?_, hleft⟩
  simpa [Ty.mem_freeVars] using hv

/-- The free variables of a list are those that occur in one of its types. -/
theorem mem_flatMap_freeVars {ts : List Ty} {v : VarId} :
    v ∈ ts.flatMap Ty.freeVars ↔ v ∈ Ty.varsList ts := by
  simp [Ty.mem_freeVars]

/-- Unless one of the variables has the last number, the supply starts after all of them. -/
theorem lt_next_after {ts : List Ty} (h : ∀ v ∈ Ty.varsList ts, v.toNat + 1 < UInt64.size) :
    ∀ v ∈ Ty.varsList ts, v.toNat < (after ts).next.toNat := by
  have hnew : new.next.toNat + 1 ≤ UInt64.size := by decide
  obtain ⟨-, hpast, -⟩ := foldl_skip_spec Nat.one_pos
    (fun v hv => h v (mem_flatMap_freeVars.mp hv)) hnew
  exact fun v hv => hpast v (mem_flatMap_freeVars.mpr hv)

/-! ## Which names are given -/

/-- Gives a fresh name to each of the variables that has none yet. -/
def cover (f : Fresher) (r : Renaming) : List VarId → Renaming × Fresher
  | [] => (r, f)
  | v :: vs =>
    if (r.lookup v).isSome then f.cover r vs
    else
      let (w, f) := f.fresh
      f.cover ((v, w) :: r) vs

/-- The names in the renaming are the numbers from `start` on, counted around, and the supply is at
the next one. -/
structure Issued (start : Nat) (r : Renaming) (f : Fresher) : Prop where
  next : f.next = .ofNat (start + r.length)
  names : r.map Prod.snd = ((List.range r.length).map fun k => .ofNat (start + k)).reverse
  distinct : (r.map Prod.fst).Nodup

/-- Issuing a variable moves the supply on by one. -/
theorem next_fresh {f : Fresher} {n : Nat} (hf : f.next = .ofNat n) :
    f.fresh.2.next = .ofNat (n + 1) := by
  show f.next + 1 = _
  rw [hf, UInt64.ofNat_add]
  rfl

/-- A renaming without names can start at any number. -/
theorem Issued.nil {f : Fresher} {n : Nat} (hf : f.next = .ofNat n) : Issued n [] f where
  next := hf
  names := rfl
  distinct := List.nodup_nil

theorem issued_nil (f : Fresher) : Issued f.next.toNat [] f := .nil UInt64.ofNat_toNat.symm

/-- A variable without a name gets the next number. -/
theorem Issued.fresh {start : Nat} {r : Renaming} {f : Fresher} (h : Issued start r f) {v : VarId}
    (hv : r.lookup v = none) : Issued start ((v, f.fresh.1) :: r) f.fresh.2 where
  next := next_fresh h.next
  names := by
    rw [List.length_cons, List.range_succ, List.map_append, List.reverse_append]
    show f.next :: r.map Prod.snd = _
    rw [h.names, h.next]
    rfl
  distinct := by
    refine List.nodup_cons.mpr ⟨fun hmem => ?_, h.distinct⟩
    obtain ⟨e, he, rfl⟩ := List.mem_map.mp hmem
    have hne := List.lookup_eq_none_iff.mp hv e he
    simp at hne

/-- What naming one more variable preserves, covering variables preserves. -/
theorem cover_induction {P : Renaming → Fresher → Prop}
    (hname : ∀ r f v, r.lookup v = none → P r f → P ((v, f.fresh.1) :: r) f.fresh.2)
    {r : Renaming} {f : Fresher} (h : P r f) (vs : List VarId) :
    P (f.cover r vs).1 (f.cover r vs).2 := by
  fun_induction cover f r vs with
  | case1 f r => exact h
  | case2 f r v vs hsome ih => exact ih h
  | case3 f r v vs hnone w f' hfresh ih =>
    obtain ⟨rfl, rfl⟩ := Prod.mk.inj hfresh
    exact ih (hname r f v (Option.not_isSome_iff_eq_none.mp hnone) h)

/-- Covering variables goes on with the numbers issued. -/
theorem Issued.cover {start : Nat} {f : Fresher} {r : Renaming} (h : Issued start r f)
    (vs : List VarId) : Issued start (f.cover r vs).1 (f.cover r vs).2 :=
  cover_induction (fun _ _ _ hv h => h.fresh hv) h vs

/-- Names that were given are kept. -/
theorem lookup_cover {r : Renaming} {v w : VarId} (h : r.lookup v = some w) (f : Fresher)
    (vs : List VarId) : (f.cover r vs).1.lookup v = some w :=
  cover_induction (P := fun r _ => r.lookup v = some w)
    (fun _ _ _ hu h => lookup_cons_of_lookup h hu) h vs

/-- Each of the variables that are covered has a name. -/
theorem isSome_lookup_cover (f : Fresher) (r : Renaming) (vs : List VarId) :
    ∀ v ∈ vs, ((f.cover r vs).1.lookup v).isSome = true := by
  fun_induction cover f r vs with
  | case1 f r => simp
  | case2 f r v vs hsome ih =>
    -- the variable has a name already and keeps it
    obtain ⟨w, hw⟩ := Option.isSome_iff_exists.mp hsome
    refine List.forall_mem_cons.mpr ⟨?_, ih⟩
    rw [lookup_cover hw, Option.isSome_some]
  | case3 f r v vs hnone w f' hfresh ih =>
    have hw : ((v, w) :: r).lookup v = some w := by simp
    refine List.forall_mem_cons.mpr ⟨?_, ih⟩
    rw [lookup_cover hw, Option.isSome_some]

/-- A variable with a name has its name as image. -/
theorem lookup_eq_image {r : Renaming} {v : VarId} (h : (r.lookup v).isSome = true) :
    r.lookup v = some (r.image v) := by
  obtain ⟨w, hw⟩ := Option.isSome_iff_exists.mp h
  rw [Renaming.image, hw, Option.getD_some]

/-- Variables are covered one after the other. -/
theorem cover_append (f : Fresher) (r : Renaming) (vs ws : List VarId) :
    f.cover r (vs ++ ws) = (f.cover r vs).2.cover (f.cover r vs).1 ws := by
  fun_induction cover f r vs with
  | case1 f r => rfl
  | case2 f r v vs hsome ih => rw [List.cons_append, cover, if_pos hsome, ih]
  | case3 f r v vs hnone w f' hfresh ih =>
    rw [List.cons_append, cover, if_neg hnone, hfresh]
    exact ih

/-- The image of a variable that was covered stays the same. -/
theorem image_cover {f : Fresher} {r : Renaming} {vs : List VarId} {v : VarId} (hv : v ∈ vs)
    (f' : Fresher) (ws : List VarId) :
    (f'.cover (f.cover r vs).1 ws).1.image v = (f.cover r vs).1.image v := by
  have hlookup := lookup_eq_image (f.isSome_lookup_cover r vs v hv)
  rw [Renaming.image, lookup_cover hlookup, Option.getD_some]

/-- No other variables are given names. -/
theorem mem_map_fst_cover {f : Fresher} {r : Renaming} {vs : List VarId} {v : VarId}
    (h : v ∈ (f.cover r vs).1.map Prod.fst) : v ∈ r.map Prod.fst ∨ v ∈ vs := by
  fun_induction cover f r vs with
  | case1 f r => exact .inl h
  | case2 f r u vs hsome ih => exact (ih h).imp_right (List.mem_cons_of_mem u)
  | case3 f r u vs hnone w f' hfresh ih =>
    rcases ih h with hv | hv
    · rcases List.mem_cons.mp hv with rfl | hv
      · exact .inr List.mem_cons_self
      · exact .inl hv
    · exact .inr (List.mem_cons_of_mem u hv)

/-! ## The single pass

A type is renamed in one pass that names a variable where it first meets it. The names can as well be
given first, in the order in which the variables come.
-/

/-- The new name of one variable. -/
theorem run_rename (v : VarId) (r : Renaming) (f : Fresher) :
    (rename v).run (r, f) = (.var ((f.cover r [v]).1.image v), f.cover r [v]) := by
  cases hlookup : r.lookup v with
  | some w =>
    have hcover : f.cover r [v] = (r, f) := by simp [cover, hlookup]
    rw [hcover, Renaming.image, hlookup, rename, StateT.run_modifyGet]
    simp only [hlookup]
    rfl
  | none =>
    have hcover : f.cover r [v] = ((v, f.fresh.1) :: r, f.fresh.2) := by simp [cover, hlookup]
    rw [hcover, Renaming.image, List.lookup_cons_self, rename, StateT.run_modifyGet]
    simp only [hlookup]
    rfl

/-- Renaming the type in one pass is naming all of its variables first and replacing them then. -/
def NamesFirst (t : Ty) : Prop :=
  ∀ r f, (t.substM rename).run (r, f) =
    (t.subst fun v => .var ((f.cover r t.vars).1.image v), f.cover r t.vars)

/-- The types of a list are renamed one after the other. -/
theorem run_substListM {ts : List Ty} (hts : ∀ t ∈ ts, NamesFirst t) (r : Renaming) (f : Fresher) :
    (Ty.substListM rename ts).run (r, f) =
      (ts.map (Ty.subst fun v => .var ((f.cover r (ts.flatMap Ty.vars)).1.image v)),
        f.cover r (ts.flatMap Ty.vars)) := by
  induction ts generalizing r f with
  | nil => rfl
  | cons t ts ih =>
    obtain ⟨ht, hts⟩ := List.forall_mem_cons.mp hts
    -- the names that later types are given do not change the first
    have hfirst : t.subst (fun v => .var ((f.cover r t.vars).1.image v)) =
        t.subst fun v => .var ((f.cover r ((t :: ts).flatMap Ty.vars)).1.image v) :=
      Ty.subst_congr fun v hv => by rw [List.flatMap_cons, cover_append, image_cover hv]
    rw [List.map_cons, ← hfirst, List.flatMap_cons, cover_append, Ty.substListM, run_bind_eq (ht r f),
      run_bind_eq (ih hts _ _)]
    rfl

/-- What the pass does to a type, by induction on the type. -/
theorem namesFirst (t : Ty) : NamesFirst t := by
  intro r f
  induction t generalizing r f with
  | prim name => rfl
  | var id => exact run_rename id r f
  | tuple elems ih =>
    rw [Ty.substM, run_bind_eq (run_substListM ih r f)]
    simp only [Ty.subst, Ty.vars, Ty.substList_eq_map, Ty.varsList_eq_flatMap]
    rfl
  | array elem size ih =>
    rw [Ty.substM, run_bind_eq (ih r f)]
    rfl
  | ref region isMut inner ih =>
    rw [Ty.substM, run_bind_eq (ih r f)]
    rfl
  | ptr isMut inner ih =>
    rw [Ty.substM, run_bind_eq (ih r f)]
    rfl
  | fn params ret ih ihret =>
    cases ret with
    | none =>
      rw [Ty.substM, run_bind_eq (run_substListM ih r f)]
      simp only [Ty.subst, Ty.vars, Ty.substList_eq_map, Ty.varsList_eq_flatMap]
      rfl
    | some ret =>
      -- as in a list, the return type may only add names
      have hparams :
          params.map (Ty.subst fun v => .var ((f.cover r (params.flatMap Ty.vars)).1.image v)) =
            params.map (Ty.subst fun v => .var ((f.cover r (Ty.fn params (some ret)).vars).1.image v)) := by
        refine List.map_inj_left.mpr fun t ht => Ty.subst_congr fun v hv => ?_
        rw [Ty.vars, Ty.varsList_eq_flatMap, cover_append,
          image_cover (List.mem_flatMap.mpr ⟨t, ht, hv⟩)]
      rw [Ty.substM, run_bind_eq (run_substListM ih r f), run_bind_eq (ihret ret rfl _ _), ← cover_append,
        hparams]
      simp only [Ty.subst, Ty.vars, Ty.substList_eq_map, Ty.varsList_eq_flatMap]
      rfl
  | named name regions args ih =>
    rw [Ty.substM, run_bind_eq (run_substListM ih r f)]
    simp only [Ty.subst, Ty.vars, Ty.substList_eq_map, Ty.varsList_eq_flatMap]
    rfl

/-- A type is renamed by the names that its variables have in the end. -/
theorem renameApart_eq (f : Fresher) (r : Renaming) (t : Ty) :
    f.renameApart r t = (t.subst fun v => .var ((f.cover r t.vars).1.image v), f.cover r t.vars) :=
  namesFirst t r f

/-- Renaming a type alone names its variables and then substitutes them. -/
theorem renameAlone_eq (f : Fresher) (t : Ty) :
    f.renameAlone t =
      (t.subst fun v => .var ((f.cover [] t.vars).1.image v), (f.cover [] t.vars).2) := by
  rw [renameAlone, renameApart_eq]

/-! ## Before the counter wraps around -/

section

variable {start n : Nat} (hroom : start + n ≤ UInt64.size)
include hroom

/-- A variable issued before the counter wraps around is no smaller than the first one. -/
theorem le_toNat_of_mem_range {w : VarId}
    (hw : w ∈ (List.range n).map fun k => UInt64.ofNat (start + k)) : start ≤ w.toNat := by
  obtain ⟨k, hk, rfl⟩ := List.mem_map.mp hw
  have hk := List.mem_range.mp hk
  rw [UInt64.toNat_ofNat_of_lt' (by omega)]
  omega

/-- No variable is issued twice before the counter wraps around. -/
theorem nodup_map_range : ((List.range n).map fun k => UInt64.ofNat (start + k)).Nodup := by
  refine List.Nodup.map_on (fun k hk l hl heq => ?_) List.nodup_range
  have hk := List.mem_range.mp hk
  have hl := List.mem_range.mp hl
  -- below the size of the counter different numbers give different names
  have htoNat := congrArg UInt64.toNat heq
  rw [UInt64.toNat_ofNat_of_lt' (by omega), UInt64.toNat_ofNat_of_lt' (by omega)] at htoNat
  omega

end

/-- A renaming that gives no name twice gives different variables different names. -/
theorem eq_of_lookup_of_nodup {r : Renaming} (h : (r.map Prod.snd).Nodup) {v v' w : VarId}
    (hv : r.lookup v = some w) (hv' : r.lookup v' = some w) : v = v' := by
  exact congrArg Prod.fst (List.inj_on_of_nodup_map h (mem_of_lookup hv) (mem_of_lookup hv') rfl)

section

variable {start : Nat} {r : Renaming} {f : Fresher}

/-- A name given before the counter wraps around is no smaller than the first one. -/
theorem Issued.le_toNat (h : Issued start r f) (hroom : start + r.length ≤ UInt64.size)
    {v w : VarId} (hw : r.lookup v = some w) : start ≤ w.toNat := by
  have hmem : w ∈ r.map Prod.snd := List.mem_map_of_mem (mem_of_lookup hw)
  rw [h.names, List.mem_reverse] at hmem
  exact le_toNat_of_mem_range hroom hmem

/-- No name is given twice before the counter wraps around. -/
theorem Issued.lookup_injective (h : Issued start r f) (hroom : start + r.length ≤ UInt64.size)
    {v v' w : VarId} (hv : r.lookup v = some w) (hv' : r.lookup v' = some w) : v = v' := by
  have hnodup : (r.map Prod.snd).Nodup := by
    rw [h.names, List.nodup_reverse]
    exact nodup_map_range hroom
  exact eq_of_lookup_of_nodup hnodup hv hv'

end

/-- A variable with a name is one of those that were given names. -/
theorem mem_map_fst_of_lookup {r : Renaming} {v w : VarId} (h : r.lookup v = some w) :
    v ∈ r.map Prod.fst :=
  List.mem_map_of_mem (mem_of_lookup h)

/-- The variables have their names in the order in which they first came. -/
theorem map_fst_cover {f : Fresher} {r : Renaming} {done : List VarId}
    (h : (r.map Prod.fst).reverse = done.eraseDups) (vs : List VarId) :
    ((f.cover r vs).1.map Prod.fst).reverse = (done ++ vs).eraseDups := by
  fun_induction cover f r vs generalizing done with
  | case1 f r => rw [h, List.append_nil]
  | case2 f r v vs hsome ih =>
    -- the variable has come before
    have hmem : v ∈ done := by
      rw [← List.mem_eraseDups, ← h, List.mem_reverse]
      obtain ⟨w, hw⟩ := Option.isSome_iff_exists.mp hsome
      exact mem_map_fst_of_lookup hw
    rw [List.append_cons]
    refine ih ?_
    rw [h, List.eraseDups_append]
    simp [List.removeAll, hmem]
  | case3 f r v vs hnone w f' hfresh ih =>
    have hmem : v ∉ done := by
      rw [← List.mem_eraseDups, ← h, List.mem_reverse]
      intro hv
      obtain ⟨e, he, rfl⟩ := List.mem_map.mp hv
      have hne := List.lookup_eq_none_iff.mp (Option.not_isSome_iff_eq_none.mp hnone) e he
      simp at hne
    rw [List.append_cons]
    refine ih ?_
    rw [List.map_cons, List.reverse_cons, h, List.eraseDups_append]
    simp [List.removeAll, hmem, List.eraseDups_cons]

/-- The name of a variable is its place in the order. -/
theorem Issued.lookup_eq {start : Nat} {r : Renaming} {f : Fresher} (h : Issued start r f)
    {v : VarId} (hv : v ∈ r.map Prod.fst) :
    r.lookup v = some (.ofNat (start + (r.map Prod.fst).reverse.idxOf v)) := by
  have hlt := List.idxOf_lt_length_of_mem (List.mem_reverse.mpr hv)
  have hkey := List.getElem_idxOf hlt
  generalize (r.map Prod.fst).reverse.idxOf v = i at hlt hkey
  simp only [← List.map_reverse, List.length_map, List.getElem_map] at hlt hkey
  have hname : (r.reverse[i]).2 = .ofNat (start + i) := by
    have hnames := congrArg (fun l => l.reverse[i]?) h.names
    simp only [List.reverse_reverse, ← List.map_reverse] at hnames
    rw [List.getElem?_map, List.getElem?_eq_getElem hlt, List.getElem?_map,
      List.getElem?_range (by simpa using hlt)] at hnames
    exact Option.some.inj hnames
  rw [← hkey, ← hname]
  exact lookup_of_mem h.distinct (List.mem_reverse.mp (List.getElem_mem hlt))

section

variable {t all : Ty} {r : Renaming} {f : Fresher} (h : Issued (after [t]).next.toNat r f)
  (hroom : t.LeavesRoom all) (hkeys : ∀ v ∈ r.map Prod.fst, v ∈ all.vars)
include h hroom hkeys

/-- As long as only variables of one type are given names, the counter does not wrap around. -/
theorem Issued.room {v : VarId} (hv : v ∈ r.map Prod.fst) :
    (∀ u ∈ t.vars, u.toNat < (after [t]).next.toNat) ∧
      (after [t]).next.toNat + r.length ≤ UInt64.size := by
  have hmem : ∀ v ∈ r.map Prod.fst, v ∈ all.freeVars := fun v hv => Ty.mem_freeVars.mpr (hkeys v hv)
  have hlength : r.length ≤ all.freeVars.length := by
    simpa using h.distinct.length_le_of_subset hmem
  obtain ⟨hpast, hleft⟩ := after_spec hroom (List.length_pos_of_mem (hmem v hv))
  exact ⟨hpast, Nat.le_trans (Nat.add_le_add_left hlength _) hleft⟩

/-- The names are no variables of the type that was renamed apart from. -/
theorem Issued.notMem_vars {v w : VarId} (hw : r.lookup v = some w) : w ∉ t.vars := by
  intro hmem
  obtain ⟨hpast, hleft⟩ := h.room hroom hkeys (mem_map_fst_of_lookup hw)
  have hle := h.le_toNat hleft hw
  have hlt := hpast w hmem
  omega

/-- Different variables have different names. -/
theorem Issued.eq_of_lookup {v v' w : VarId} (hv : r.lookup v = some w)
    (hv' : r.lookup v' = some w) : v = v' :=
  h.lookup_injective (h.room hroom hkeys (mem_map_fst_of_lookup hv)).2 hv hv'

end

/-- With enough numbers left, a type that is renamed apart from another shares no variable with it,
and different variables get different names. -/
theorem exists_renaming {t pattern : Ty} (hroom : t.LeavesRoom pattern) :
    ∃ ρ : VarId → VarId,
      ((after [t]).renameAlone pattern).1 = pattern.subst (fun v => .var (ρ v)) ∧
      (∀ v ∈ pattern.vars, ρ v ∉ t.vars) ∧ Set.InjOn ρ {v | v ∈ pattern.vars} := by
  let r := ((after [t]).cover [] pattern.vars).1
  have hissued := (issued_nil (after [t])).cover pattern.vars
  have hcovered := (after [t]).isSome_lookup_cover [] pattern.vars
  have hkeys : ∀ v ∈ r.map Prod.fst, v ∈ pattern.vars :=
    fun v hv => (mem_map_fst_cover hv).resolve_left (by simp)
  refine ⟨r.image, congrArg Prod.fst (renameAlone_eq _ _), fun v hv => ?_, fun v hv v' hv' heq => ?_⟩
  · exact hissued.notMem_vars hroom hkeys (lookup_eq_image (hcovered v hv))
  · have hlookup : r.lookup v' = some (r.image v) := heq ▸ lookup_eq_image (hcovered v' hv')
    exact hissued.eq_of_lookup hroom hkeys (lookup_eq_image (hcovered v hv)) hlookup

/-! ## The variables of a renamed type -/

/-- The variable is one of the `k` that a supply issues from number `n` on. -/
def Among (n k : Nat) (w : VarId) : Prop := ∃ i < k, w = .ofNat (n + i)

theorem not_among_zero (n : Nat) (w : VarId) : ¬ Among n 0 w := by
  rintro ⟨i, hi, -⟩
  omega

/-- Issuing goes on where it stopped. -/
theorem among_add {n k l : Nat} {w : VarId} :
    Among n (k + l) w ↔ Among n k w ∨ Among (n + k) l w := by
  constructor
  · rintro ⟨i, hi, rfl⟩
    by_cases hik : i < k
    · exact .inl ⟨i, hik, rfl⟩
    · refine .inr ⟨i - k, by omega, congrArg UInt64.ofNat ?_⟩
      omega
  · rintro (⟨i, hi, rfl⟩ | ⟨i, hi, rfl⟩)
    · exact ⟨i, Nat.lt_add_right l hi, rfl⟩
    · exact ⟨k + i, Nat.add_lt_add_left hi k, by rw [Nat.add_assoc]⟩

/-- The variables issued are those that are less than `k` steps away, counted around. -/
theorem among_toNat_iff {start w : VarId} {k : Nat} :
    Among start.toNat k w ↔ (w - start).toNat < k := by
  constructor
  · rintro ⟨i, hi, rfl⟩
    have hsub : UInt64.ofNat (start.toNat + i) - start = .ofNat i := by
      rw [UInt64.ofNat_add, UInt64.ofNat_toNat, UInt64.add_comm, UInt64.add_sub_cancel]
    rw [hsub, UInt64.toNat_ofNat']
    exact Nat.lt_of_le_of_lt (Nat.mod_le _ _) hi
  · intro hlt
    refine ⟨(w - start).toNat, hlt, ?_⟩
    rw [UInt64.ofNat_add, UInt64.ofNat_toNat, UInt64.ofNat_toNat, UInt64.add_comm,
      UInt64.sub_add_cancel]

/-- From 0 on the variables issued are those with the lowest numbers, also after the last one. -/
theorem among_zero_iff {n : Nat} {w : VarId} : Among 0 n w ↔ w.toNat < n := by
  rw [← UInt64.toNat_zero, among_toNat_iff, UInt64.sub_zero]

/-- A type that is renamed by itself uses as many names as it has distinct variables. -/
theorem length_cover_vars (f : Fresher) (t : Ty) :
    (f.cover [] t.vars).1.length = t.freeVars.length := by
  have hkeys : ((f.cover [] t.vars).1.map Prod.fst).reverse = ([] ++ t.vars).eraseDups :=
    map_fst_cover rfl t.vars
  simpa [Ty.freeVars] using congrArg List.length hkeys

/-- The variables of a type that is renamed by itself are the next ones that the supply issues. -/
theorem mem_vars_renameAlone {f : Fresher} {n : Nat} (hf : f.next = .ofNat n) (t : Ty) :
    (f.renameAlone t).2.next = .ofNat (n + t.freeVars.length) ∧
      ∀ w, w ∈ (f.renameAlone t).1.vars ↔ Among n t.freeVars.length w := by
  have hissued := (Issued.nil hf).cover t.vars
  rw [← f.length_cover_vars t, renameAlone_eq]
  refine ⟨hissued.next, fun w => ?_⟩
  -- the variables are read off the renaming: all its names occur, as only variables of `t` have one
  have hnames : Among n (f.cover [] t.vars).1.length w ↔
      w ∈ (f.cover [] t.vars).1.map Prod.snd := by
    rw [hissued.names]
    simp [Among, eq_comm]
  rw [hnames, Ty.mem_vars_subst]
  constructor
  · rintro ⟨v, hv, hw⟩
    obtain rfl : w = (f.cover [] t.vars).1.image v := by simpa [Ty.vars] using hw
    have hlookup := lookup_eq_image (f.isSome_lookup_cover [] t.vars v hv)
    exact List.mem_map_of_mem (mem_of_lookup hlookup)
  · intro hw
    obtain ⟨⟨v, w⟩, he, rfl⟩ := List.mem_map.mp hw
    have hv := (mem_map_fst_cover (List.mem_map_of_mem he)).resolve_left (by simp)
    refine ⟨v, hv, ?_⟩
    rw [Renaming.image, lookup_of_mem hissued.distinct he]
    simp [Ty.vars]

end Fresher

end Generics
