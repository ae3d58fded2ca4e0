import Generics.Proofs.Const.Mangling
import Mathlib.Data.List.Induction
import Mathlib.Data.List.Nodup

/-!
# Identifiers of partial instances

A partial instance fixes some parameters of an item and is named after these alone. Which parameters a
name is made of is not known beforehand, and parts are set apart by underscores, which the names of
parameters may hold as well. Read from its end, an identifier shows the last value, since values have
no underscores. It does not show where the name before it starts, if a name ends like a value with the
name of another parameter after it: then the longer name may stand for both.

## Main results

* `Const.Context.specialize_eq_ok`: how a partial instance is named;
* `Const.Context.eq_or_of_append_name`: two identifiers with the same last value go on with the same
  name, or one name goes on inside the other identifier;
* `Const.Context.specialize_eq_iff`: unless a name swallows a value and a name that the other
  identifier has, identifiers are the same exactly when the same parameters have the same values;
* `Const.Context.specialize_ambiguous`: two different partial instances with one identifier.
-/

namespace Generics

namespace Text

/-- An identifier: a letter or an underscore, and then letters, digits and underscores. -/
def isIdentifier (s : String) : Bool :=
  match s.toList with
  | [] => false
  | c :: cs => (c = '_' || isLetter c) && cs.all isIdentChar

/-- A text of characters that an identifier may contain is safe as it is. -/
theorem identSafe_of_forall {s : String} (h : ∀ c ∈ s.toList, isIdentChar c = true) :
    identSafe s = s := by
  have hmap : (s.toList.map fun c => if isIdentChar c then c else '_') = s.toList :=
    (List.map_congr_left fun c hc => if_pos (h c hc)).trans (List.map_id' _)
  rw [identSafe, hmap, String.ofList_toList]

/-- An identifier is safe as it is. -/
theorem identSafe_of_isIdentifier {s : String} (h : isIdentifier s = true) : identSafe s = s := by
  refine identSafe_of_forall ?_
  unfold isIdentifier at h
  split at h
  · cases h
  · rename_i c cs hs
    rw [Bool.and_eq_true] at h
    rw [hs]
    refine List.forall_mem_cons.mpr ⟨?_, List.all_eq_true.mp h.2⟩
    rw [isIdentChar, h.1, Bool.true_or]

end Text

namespace Const.Context

open Text

/-! ## How a partial instance is named -/

/-- The value that the arguments give to a parameter. -/
def fixedIn (args : List Argument) (p : Param) : Option ConstValue :=
  (args.find? fun a => a.name = p.name).bind Argument.value

/-- The parameters that the arguments fix, with their values, in the order of their declaration. -/
def fixed (c : Context) (args : List Argument) : List (Param × ConstValue) :=
  c.params.filterMap fun p => (fixedIn args p).map (p, ·)

/-- The parts of an identifier for parameters with their values. -/
def segments (xs : List (Param × ConstValue)) : List Char :=
  xs.flatMap fun x => '_' :: '_' :: x.1.name.toList ++ '_' :: x.2.mangle

/-- The parameters that are fixed, with their values. -/
theorem mem_fixed {c : Context} {args : List Argument} {p : Param} {v : ConstValue} :
    (p, v) ∈ c.fixed args ↔ p ∈ c.params ∧ fixedIn args p = some v := by
  rw [fixed, List.mem_filterMap]
  constructor
  · rintro ⟨q, hq, hv⟩
    obtain ⟨w, hw, heq⟩ := Option.map_eq_some_iff.mp hv
    obtain ⟨rfl, rfl⟩ := Prod.mk.inj heq
    exact ⟨hq, hw⟩
  · rintro ⟨hp, hv⟩
    exact ⟨p, hp, by rw [hv]; rfl⟩

/-- A partial instance is named after the parameters that it fixes. -/
theorem specialize_eq_ok {c : Context} (hident : ∀ p ∈ c.params, isIdentifier p.name = true)
    {args : List Argument} {id : String} (h : c.specialize args = .ok id) :
    id.toList = ((identSafe c.owner).toList ++ "__spec".toList) ++ segments (c.fixed args) := by
  unfold specialize at h
  obtain ⟨given, hgiven, h⟩ := exists_ok_of_bind_eq_ok h
  obtain rfl := Except.ok.inj h
  have hlookup : ∀ p : Param, given.lookup p.name = fixedIn args p := fun p => by
    rw [lookup_of_collect hgiven]
    rfl
  -- identifiers are safe already, so that names stand in the segments as they are
  have hparts : (c.params.filterMap fun p => (given.lookup p.name).map (mangled p.name)).flatMap
      String.toList = segments (c.fixed args) := by
    rw [segments, fixed]
    generalize c.params = params at hident
    induction params with
    | nil => rfl
    | cons p params ih =>
      obtain ⟨hp, hparams⟩ := List.forall_mem_cons.mp hident
      rw [List.filterMap_cons, List.filterMap_cons, hlookup]
      cases fixedIn args p with
      | none => exact ih hparams
      | some v =>
        simp only [Option.map_some, List.flatMap_cons, ih hparams, toList_mangled,
          identSafe_of_isIdentifier hp]
  simp [← hparts]

/-! ## Reading an identifier from its end -/

/-- A text without underscores that comes last ends whatever comes after an underscore. -/
theorem suffix_of_append_underscore {a b x y : List Char} (ha : '_' ∉ a)
    (h : x ++ '_' :: a = y ++ '_' :: b) : a <:+ b := by
  rcases List.append_eq_append_iff.mp h with ⟨m, -, hm⟩ | ⟨m, -, hm⟩
  · cases m with
    | nil => exact (List.cons.inj hm).2 ▸ List.suffix_refl a
    | cons c m =>
      -- the second underscore would be one of `a`
      obtain ⟨-, rfl⟩ := List.cons.inj hm
      simp at ha
  · cases m with
    | nil => exact (List.cons.inj hm).2 ▸ List.suffix_refl b
    | cons c m =>
      obtain ⟨-, rfl⟩ := List.cons.inj hm
      exact ⟨m ++ ['_'], by simp⟩

/-- The last text without underscores can be told from what is before. -/
theorem append_underscore_inj {a b x y : List Char} (ha : '_' ∉ a) (hb : '_' ∉ b)
    (h : x ++ '_' :: a = y ++ '_' :: b) : x = y ∧ a = b := by
  have hab := suffix_of_append_underscore ha h
  have hba := suffix_of_append_underscore hb h.symm
  obtain rfl := hab.eq_of_length (Nat.le_antisymm hab.length_le hba.length_le)
  exact ⟨List.append_cancel_right h, rfl⟩

/-- The text ends in a character other than an underscore. -/
def EndsPlain (cs : List Char) : Prop := ∃ ds c, cs = ds ++ [c] ∧ c ≠ '_'

/-- A text that ends in an underscore does not end plainly. -/
theorem not_endsPlain_concat (cs : List Char) : ¬ EndsPlain (cs ++ ['_']) := by
  rintro ⟨ds, c, heq, hc⟩
  have hlast : ['_'] = [c] := List.append_inj_right' heq rfl
  exact hc (List.cons.inj hlast).1.symm

/-- The last segment of a name. -/
theorem append_segments_concat (base : List Char) (xs : List (Param × ConstValue))
    (x : Param × ConstValue) : base ++ segments (xs ++ [x]) =
      base ++ segments xs ++ '_' :: '_' :: x.1.name.toList ++ '_' :: x.2.mangle := by
  simp [segments]

/-- A value ends in a character other than an underscore, so that identifiers do. -/
theorem EndsPlain.append_segments {base : List Char} (h : EndsPlain base)
    (xs : List (Param × ConstValue)) : EndsPlain (base ++ segments xs) := by
  induction xs using List.reverseRecOn with
  | nil => simpa [segments] using h
  | append_singleton xs x ih =>
    obtain ⟨c, cs, hmangle, -⟩ := x.2.exists_mangle_eq_cons
    have hne : x.2.mangle ≠ [] := by simp [hmangle]
    refine ⟨base ++ segments xs ++ '_' :: '_' :: x.1.name.toList ++ '_' :: x.2.mangle.dropLast,
      x.2.mangle.getLast hne, ?_, fun heq => ?_⟩
    · rw [append_segments_concat, List.append_assoc _ ('_' :: _) [_], List.cons_append,
        List.dropLast_append_getLast hne]
    · exact x.2.underscore_notMem_mangle (heq ▸ List.getLast_mem hne)

/-- Two identifiers that end in the same value, which is taken off, go on with the same name, or one
name goes on inside what is before the other name. -/
theorem eq_or_of_append_name {x y p q : List Char} (hx : EndsPlain x) (hy : EndsPlain y)
    (h : x ++ '_' :: '_' :: p = y ++ '_' :: '_' :: q) :
    (x = y ∧ p = q) ∨ (∃ m, y = x ++ '_' :: '_' :: m ∧ p = m ++ '_' :: '_' :: q) ∨
      ∃ m, x = y ++ '_' :: '_' :: m ∧ q = m ++ '_' :: '_' :: p := by
  -- a name that is longer by one character would start with an underscore, which the other
  -- identifier would have before its name
  have hlonger : ∀ {x y p q m : List Char}, EndsPlain y → y = x ++ m →
      '_' :: '_' :: p = m ++ '_' :: '_' :: q →
      (x = y ∧ p = q) ∨ ∃ m, y = x ++ '_' :: '_' :: m ∧ p = m ++ '_' :: '_' :: q := by
    rintro x y p q m hy rfl hm
    cases m with
    | nil => exact .inl ⟨(List.append_nil x).symm, by simpa using hm⟩
    | cons c m =>
      cases m with
      | nil =>
        obtain ⟨rfl, -⟩ := List.cons.inj hm
        exact absurd hy (not_endsPlain_concat x)
      | cons d m =>
        simp only [List.cons_append, List.cons.injEq] at hm
        obtain ⟨rfl, rfl, hm⟩ := hm
        exact .inr ⟨m, rfl, hm⟩
  rcases List.append_eq_append_iff.mp h with ⟨m, hm, hpq⟩ | ⟨m, hm, hpq⟩
  · exact (hlonger hy hm hpq).imp_right .inl
  · rcases hlonger hx hm hpq with ⟨hxy, hqp⟩ | hm
    · exact .inl ⟨hxy.symm, hqp.symm⟩
    · exact .inr (.inr hm)

/-! ## When an identifier shows what is fixed -/

/-- The members of a list, each with the next one. -/
def neighbours (xs : List (Param × ConstValue)) :
    List ((Param × ConstValue) × (Param × ConstValue)) := xs.zip xs.tail

/-- The last two of a list are neighbours. -/
theorem mem_neighbours_concat (xs : List (Param × ConstValue)) (x y : Param × ConstValue) :
    (x, y) ∈ neighbours (xs ++ [x] ++ [y]) := by
  induction xs with
  | nil => simp [neighbours]
  | cons z xs ih =>
    have htail : neighbours (xs ++ [x] ++ [y]) ⊆ neighbours (z :: xs ++ [x] ++ [y]) := by
      cases xs <;> simp [neighbours]
    exact htail ih

/-- The name of a parameter in `xs` ends with a value in `ys`, two underscores and the name that comes
next in `ys`. -/
def Swallows (xs ys : List (Param × ConstValue)) : Prop :=
  ∃ x ∈ xs, ∃ n ∈ neighbours ys, n.1.2.mangle ++ '_' :: '_' :: n.2.1.name.toList <:+ x.1.name.toList

instance (xs ys : List (Param × ConstValue)) : Decidable (Swallows xs ys) :=
  inferInstanceAs (Decidable (∃ x ∈ xs, ∃ n ∈ neighbours ys,
    n.1.2.mangle ++ '_' :: '_' :: n.2.1.name.toList <:+ x.1.name.toList))

/-- Neighbours stay so when the list goes on. -/
theorem neighbours_subset_concat (xs : List (Param × ConstValue)) (x : Param × ConstValue) :
    neighbours xs ⊆ neighbours (xs ++ [x]) := by
  induction xs with
  | nil => simp [neighbours]
  | cons y xs ih =>
    cases xs with
    | nil => simp [neighbours]
    | cons z xs =>
      intro n hn
      rcases List.mem_cons.mp hn with rfl | hn
      · exact List.mem_cons_self
      · exact List.mem_cons_of_mem _ (ih hn)

/-- What is swallowed stays so when both lists go on. -/
theorem Swallows.concat {xs ys : List (Param × ConstValue)} (h : Swallows xs ys)
    (x y : Param × ConstValue) : Swallows (xs ++ [x]) (ys ++ [y]) := by
  obtain ⟨z, hz, n, hn, hsuffix⟩ := h
  exact ⟨z, List.mem_append_left _ hz, n, neighbours_subset_concat ys y hn, hsuffix⟩

/-- A name that goes on inside another identifier swallows the last value there and the name after
it. -/
theorem swallows_of_append_name {base : List Char} {xs ys : List (Param × ConstValue)}
    {x y : Param × ConstValue} {m : List Char}
    (hys : base ++ segments ys = base ++ segments xs ++ '_' :: '_' :: m)
    (hname : x.1.name.toList = m ++ '_' :: '_' :: y.1.name.toList) :
    Swallows (xs ++ [x]) (ys ++ [y]) := by
  cases ys using List.reverseRecOn with
  | nil => simp [segments] at hys
  | append_singleton ys z =>
    have hsuffix : z.2.mangle <:+ m := by
      rw [append_segments_concat, List.append_cons _ '_' ('_' :: m)] at hys
      exact suffix_of_append_underscore z.2.underscore_notMem_mangle hys
    obtain ⟨front, rfl⟩ := hsuffix
    refine ⟨x, by simp, (z, y), mem_neighbours_concat ys z y, front, ?_⟩
    rw [hname, List.append_assoc]

/-- Unless a name swallows a value and a name of the other list, parameters and values can be read off
the parts, from the last one to the first. -/
theorem segments_injective {base : List Char} (hbase : EndsPlain base)
    {xs ys : List (Param × ConstValue)}
    (hnames : ∀ x ∈ xs, ∀ y ∈ ys, x.1.name = y.1.name → x.1 = y.1)
    (hxy : ¬ Swallows xs ys) (hyx : ¬ Swallows ys xs)
    (h : base ++ segments xs = base ++ segments ys) : xs = ys := by
  induction xs using List.reverseRecOn generalizing ys with
  | nil =>
    cases ys with
    | nil => rfl
    | cons y ys => simp [segments] at h
  | append_singleton xs x ih =>
    cases ys using List.reverseRecOn with
    | nil => simp [segments] at h
    | append_singleton ys y =>
      rw [append_segments_concat, append_segments_concat] at h
      -- the last value is what comes after the last underscore
      obtain ⟨hfront, hvalue⟩ := append_underscore_inj x.2.underscore_notMem_mangle
        y.2.underscore_notMem_mangle h
      rcases eq_or_of_append_name (hbase.append_segments xs) (hbase.append_segments ys) hfront with
        ⟨hrest, hname⟩ | ⟨m, hys, hname⟩ | ⟨m, hxs, hname⟩
      · have hparam : x.1 = y.1 := hnames x (by simp) y (by simp) (String.toList_inj.mp hname)
        have hlast : x = y := Prod.ext hparam (ConstValue.mangle_injective hvalue)
        have hfirst : xs = ys := ih
          (fun a ha b hb => hnames a (List.mem_append_left _ ha) b (List.mem_append_left _ hb))
          (fun hs => hxy (hs.concat x y)) (fun hs => hyx (hs.concat y x)) hrest
        rw [hfirst, hlast]
      · exact absurd (swallows_of_append_name hys hname) hxy
      · exact absurd (swallows_of_append_name hxs hname) hyx

/-- Let the parameters of an item have different names, which are identifiers. Two partial instances
in which no name that one fixes swallows a value and a name that the other fixes have the same
identifier exactly when they fix the same parameters to the same values. -/
theorem specialize_eq_iff {c : Context} (hident : ∀ p ∈ c.params, isIdentifier p.name = true)
    (hdistinct : (c.params.map Param.name).Nodup) {args args' : List Argument} {id id' : String}
    (h : c.specialize args = .ok id) (h' : c.specialize args' = .ok id')
    (hswallows : ¬ Swallows (c.fixed args) (c.fixed args'))
    (hswallows' : ¬ Swallows (c.fixed args') (c.fixed args)) :
    id = id' ↔ ∀ p ∈ c.params, fixedIn args p = fixedIn args' p := by
  rw [← String.toList_inj, specialize_eq_ok hident h, specialize_eq_ok hident h']
  constructor
  · intro heq p hp
    -- the base ends in a letter, so that the first segment begins where its underscores do
    have hbase : EndsPlain ((identSafe c.owner).toList ++ "__spec".toList) :=
      ⟨(identSafe c.owner).toList ++ "__spe".toList, 'c', by simp, by decide⟩
    have hfixed : c.fixed args = c.fixed args' := by
      refine segments_injective hbase (fun x hx y hy hname => ?_) hswallows hswallows' heq
      exact List.inj_on_of_nodup_map hdistinct (mem_fixed.mp hx).1 (mem_fixed.mp hy).1 hname
    refine Option.ext fun v => ?_
    have hmem : (p, v) ∈ c.fixed args ↔ (p, v) ∈ c.fixed args' := by rw [hfixed]
    simpa only [mem_fixed, hp, true_and] using hmem
  · intro heq
    have hfixed : c.fixed args = c.fixed args' :=
      List.filterMap_congr fun p hp => by rw [heq p hp]
    rw [hfixed]

/-- Three parameters, of which the last is called like the value of the first with the second after
it. -/
def grid : Context where
  owner := "Grid"
  params := [⟨"A", .prim "u8", none⟩, ⟨"B", .prim "u8", none⟩, ⟨"A_1__B", .prim "u8", none⟩]

theorem isIdentifier_of_mem_grid : ∀ p ∈ grid.params, isIdentifier p.name = true := by decide +kernel

theorem nodup_grid : (grid.params.map Param.name).Nodup := by decide

/-- The order of the arguments does not matter; the long name swallows nothing here, as the second
parameter is left open. -/
theorem specialize_eq_iff_of_reordered :
    let args : List Argument := [⟨"A", some (.integer 1)⟩, ⟨"A_1__B", some (.integer 2)⟩]
    grid.specialize args = .ok "Grid__spec__A_1__A_1__B_2" ∧
      grid.specialize args.reverse = .ok "Grid__spec__A_1__A_1__B_2" ∧
      ∀ p ∈ grid.params, fixedIn args p = fixedIn args.reverse p := by
  intro args
  have h : grid.specialize args = .ok "Grid__spec__A_1__A_1__B_2" := by
    unfold args
    decide +kernel
  have h' : grid.specialize args.reverse = .ok "Grid__spec__A_1__A_1__B_2" := by
    unfold args
    decide +kernel
  have hfixed : grid.fixed args.reverse = grid.fixed args := rfl
  have hswallows : ¬ Swallows (grid.fixed args) (grid.fixed args) := by
    unfold args
    decide +kernel
  have heq := specialize_eq_iff isIdentifier_of_mem_grid nodup_grid h h' (hfixed ▸ hswallows)
    (hfixed ▸ hswallows)
  exact ⟨h, h', heq.mp rfl⟩

/-- The identifier of the instance that fixes the last parameter is that of the one that fixes the
other two. -/
theorem specialize_ambiguous :
    let args : List Argument := [⟨"A", some (.integer 1)⟩, ⟨"B", some (.integer 2)⟩]
    let args' : List Argument := [⟨"A_1__B", some (.integer 2)⟩]
    (∀ p ∈ grid.params, isIdentifier p.name = true) ∧ (grid.params.map Param.name).Nodup ∧
      grid.specialize args = .ok "Grid__spec__A_1__B_2" ∧
      grid.specialize args' = .ok "Grid__spec__A_1__B_2" ∧
      ∃ p ∈ grid.params, fixedIn args p ≠ fixedIn args' p := by
  refine ⟨isIdentifier_of_mem_grid, nodup_grid, ?_⟩
  decide +kernel

end Const.Context

end Generics
