import Generics.Proofs.Const.Specialization

/-!
# Identifiers of different items

The identifier of an instance starts with the name of its item, in which every character that an
identifier may not contain has become an underscore. Each argument adds two underscores, a name, an
underscore and a value. Nothing marks where the name of the item ends. A name that goes on from the
name of another item with two underscores may therefore be read as that item with an argument.

Two items are told apart by all their identifiers exactly when neither name goes on from the other
in this way. Paths whose segments hold no two underscores in a row, and end in none, go on from each
other only if one item is nested in the other.

## Main results

* `Const.Context.confusable_of_eq`: instances with the same identifier have names of which one goes
  on from the other;
* `Const.Context.Confusable.exists_eq`: items with such names have instances with the same
  identifier;
* `Const.Context.goesOn_path_iff`: a path goes on from the paths that it starts with, and from no
  others;
* `Const.Context.monomorphize_separates_iff`: which items are told apart by the identifiers of their
  instances;
* `Const.Context.monomorphize_confuses`: instances of different items with one identifier.
-/

namespace Generics.Const.Context

open Text

/-! ## Names that go on from others -/

/-- Two underscores, by which arguments and the segments of a path are set apart. -/
def separator : List Char := ['_', '_']

/-- The name of an item as its identifiers show it. -/
def shown (owner : String) : List Char := (identSafe owner).toList

/-- The second name goes on from the first, if at all, with an underscore at its end or with a
separator. -/
def GoesOn (a b : List Char) : Prop := a ++ separator <+: b ++ separator

/-- One of the names goes on from the other. -/
def Confusable (owner owner' : String) : Prop :=
  GoesOn (shown owner) (shown owner') ∨ GoesOn (shown owner') (shown owner)

instance (a b : List Char) : Decidable (GoesOn a b) :=
  inferInstanceAs (Decidable (a ++ separator <+: b ++ separator))

instance (owner owner' : String) : Decidable (Confusable owner owner') :=
  inferInstanceAs (Decidable (GoesOn (shown owner) (shown owner') ∨
    GoesOn (shown owner') (shown owner)))

theorem isIdentChar_of_mem_shown {owner : String} {c : Char} (h : c ∈ shown owner) :
    isIdentChar c = true := by
  rw [shown, identSafe, String.toList_ofList] at h
  obtain ⟨d, -, rfl⟩ := List.mem_map.mp h
  split
  · assumption
  · rfl

/-- How far a text reaches into the separator that it starts with. -/
theorem cases_of_separator {m y : List Char} (h : separator <+: m ++ y) :
    m = [] ∨ m = ['_'] ∨ separator <+: m := by
  obtain ⟨rest, hrest⟩ := h
  rcases m with _ | ⟨c, _ | ⟨d, m⟩⟩
  · exact .inl rfl
  · obtain ⟨rfl, -⟩ := List.cons.inj hrest
    exact .inr (.inl rfl)
  · simp only [separator, List.cons_append, List.nil_append, List.cons.injEq] at hrest
    obtain ⟨rfl, rfl, -⟩ := hrest
    exact .inr (.inr ⟨m, rfl⟩)

/-- A name goes on from another by the start of what the arguments of the other add. -/
theorem goesOn_append {a m x y : List Char} (hx : x = [] ∨ separator <+: x) (h : x = m ++ y) :
    GoesOn a (a ++ m) := by
  rw [GoesOn, List.append_assoc, List.prefix_append_right_inj]
  subst h
  rcases hx with hnil | hx
  · rw [(List.append_eq_nil_iff.mp hnil).1]
    exact List.prefix_refl separator
  · rcases cases_of_separator hx with rfl | rfl | hm
    · exact List.prefix_refl separator
    · exact ⟨['_'], rfl⟩
    · exact hm.trans (List.prefix_append m separator)

/-! ## Items with instances of the same identifier -/

/-- Arguments add nothing to a name, or something that starts with a separator. -/
theorem parts_eq_nil_or_separated (params : List Param) (values : List ConstValue) :
    (parts params values).flatMap String.toList = [] ∨
      separator <+: (parts params values).flatMap String.toList := by
  cases params with
  | nil => exact .inl rfl
  | cons p params =>
    cases values with
    | nil => exact .inl rfl
    | cons v values =>
      refine .inr ?_
      simp [parts, toList_mangled, separator]

/-- Instances with the same identifier are of items of which one name goes on from the other. -/
theorem confusable_of_eq {c c' : Context} {args args' : List Argument} {id : String}
    (h : c.monomorphize args = .ok id) (h' : c'.monomorphize args' = .ok id) :
    Confusable c.owner c'.owner := by
  obtain ⟨values, -, hid⟩ := monomorphize_eq_ok h
  obtain ⟨values', -, hid'⟩ := monomorphize_eq_ok h'
  rw [hid] at hid'
  -- the longer name takes in a part of what the other arguments add
  rcases List.append_eq_append_iff.mp hid' with ⟨m, hname, hparts⟩ | ⟨m, hname, hparts⟩
  · left
    rw [shown, shown, hname]
    exact goesOn_append (parts_eq_nil_or_separated _ _) hparts
  · right
    rw [shown, shown, hname]
    exact goesOn_append (parts_eq_nil_or_separated _ _) hparts

/-- An item with one parameter, which is one by default. -/
def single (owner name : String) : Context where
  owner := owner
  params := [⟨name, .prim "u8", some (.integer 1)⟩]

theorem exists_monomorphize_single (owner name : String) :
    ∃ id, (single owner name).monomorphize [] = .ok id ∧
      id.toList = shown owner ++ (separator ++ (identSafe name).toList ++ ['_', '1']) := by
  refine ⟨identSafe owner ++ String.join [mangled name (.integer 1)], rfl, ?_⟩
  have hone : (ConstValue.integer 1).mangle = ['1'] := by decide
  simp [toList_mangled, hone, shown, separator]

/-- If a name goes on from another, a parameter of the other item can make up for the difference. -/
theorem exists_of_goesOn {owner owner' : String} (h : GoesOn (shown owner) (shown owner')) :
    ∃ name id, (single owner name).monomorphize [] = .ok id ∧
      (single owner' "N").monomorphize [] = .ok id := by
  obtain ⟨rest, hrest⟩ := h
  -- what is left of the longer name belongs to an identifier, so it is safe as it is
  have hsafe : identSafe (String.ofList (rest ++ ['N'])) = String.ofList (rest ++ ['N']) := by
    refine identSafe_of_forall fun c hc => ?_
    rw [String.toList_ofList, List.mem_append, List.mem_singleton] at hc
    rcases hc with hc | rfl
    · have hmem : c ∈ shown owner' ++ separator := hrest ▸ List.mem_append_right _ hc
      rcases List.mem_append.mp hmem with hmem | hmem
      · exact isIdentChar_of_mem_shown hmem
      · obtain rfl : c = '_' := by simpa [separator] using hmem
        rfl
    · decide +kernel
  obtain ⟨id, hid, htext⟩ := exists_monomorphize_single owner (String.ofList (rest ++ ['N']))
  obtain ⟨id', hid', htext'⟩ := exists_monomorphize_single owner' "N"
  have hN : (identSafe "N").toList = ['N'] := by decide +kernel
  have heq : id = id' := by
    refine String.toList_inj.mp ?_
    calc id.toList
        = shown owner ++ separator ++ rest ++ ['N', '_', '1'] := by
          rw [htext, hsafe, String.toList_ofList]
          simp
      _ = shown owner' ++ separator ++ ['N', '_', '1'] := by rw [hrest]
      _ = id'.toList := by
          rw [htext', hN]
          simp
  exact ⟨_, id, hid, heq ▸ hid'⟩

theorem Confusable.exists_eq {owner owner' : String} (h : Confusable owner owner') :
    ∃ c c' : Context, c.owner = owner ∧ c'.owner = owner' ∧
      ∃ id, c.monomorphize [] = .ok id ∧ c'.monomorphize [] = .ok id := by
  rcases h with h | h
  · obtain ⟨name, id, hid, hid'⟩ := exists_of_goesOn h
    exact ⟨single owner name, single owner' "N", rfl, rfl, id, hid, hid'⟩
  · obtain ⟨name, id, hid, hid'⟩ := exists_of_goesOn h
    exact ⟨single owner "N", single owner' name, rfl, rfl, id, hid', hid⟩

/-! ## Paths -/

/-- The path with the given segments. -/
def path (segs : List String) : String := "::".intercalate segs

/-- The text holds no separator, and does not end in an underscore. -/
def Closed (cs : List Char) : Prop := ¬ separator <:+: cs ∧ cs.getLast? ≠ some '_'

instance (cs : List Char) : Decidable (Closed cs) :=
  inferInstanceAs (Decidable (¬ separator <:+: cs ∧ cs.getLast? ≠ some '_'))

/-- An identifier whose end can be told from a separator after it. -/
@[mk_iff] structure IsSegment (s : String) : Prop where
  isIdentifier : isIdentifier s = true
  closed : Closed s.toList

instance (s : String) : Decidable (IsSegment s) := decidable_of_iff' _ (isSegment_iff s)

/-- Segments with a separator after each. -/
def separated (segs : List String) : List Char := segs.flatMap fun s => s.toList ++ separator

theorem shown_append (s t : String) : shown (s ++ t) = shown s ++ shown t := by
  simp [shown, identSafe]

theorem shown_of_isIdentifier {s : String} (h : isIdentifier s = true) : shown s = s.toList := by
  rw [shown, identSafe_of_isIdentifier h]

/-- A path is shown with separators between its segments. -/
theorem shown_path_append {segs : List String} (hne : segs ≠ [])
    (h : ∀ s ∈ segs, isIdentifier s = true) :
    shown (path segs) ++ separator = separated segs := by
  have hcolons : shown "::" = separator := by decide +kernel
  induction segs with
  | nil => exact absurd rfl hne
  | cons s segs ih =>
    obtain ⟨hs, hsegs⟩ := List.forall_mem_cons.mp h
    cases segs with
    | nil =>
      rw [path, String.intercalate_singleton, shown_of_isIdentifier hs]
      simp [separated]
    | cons t segs =>
      have htail : separated (s :: t :: segs) =
          s.toList ++ separator ++ separated (t :: segs) := rfl
      have hpath : path (s :: t :: segs) = s ++ "::" ++ path (t :: segs) :=
        String.intercalate_cons_cons
      rw [hpath, shown_append, shown_append, hcolons, shown_of_isIdentifier hs, htail,
        ← ih (List.cons_ne_nil t segs) hsegs, List.append_assoc]

/-- A closed text can be told from a separator after it and from what follows. -/
theorem Closed.append_inj {a b x y : List Char} (ha : Closed a) (hb : Closed b)
    (h : a ++ separator ++ x = b ++ separator ++ y) : a = b ∧ x = y := by
  -- the rest of a longer text would be an underscore at its end, or would start with a separator
  have hlonger : ∀ {a b m x y : List Char}, Closed b → b = a ++ m →
      separator ++ x = m ++ (separator ++ y) → m = [] := by
    rintro a b m x y hb rfl hm
    rcases cases_of_separator ⟨x, hm⟩ with rfl | rfl | hstart
    · rfl
    · exact absurd (by simp) hb.2
    · exact absurd (hstart.isInfix.trans (List.suffix_append a m).isInfix) hb.1
  rw [List.append_assoc, List.append_assoc] at h
  rcases List.append_eq_append_iff.mp h with ⟨m, hm, hrest⟩ | ⟨m, hm, hrest⟩
  · obtain rfl := hlonger hb hm hrest
    exact ⟨by simpa using hm.symm, List.append_cancel_left hrest⟩
  · obtain rfl := hlonger ha hm hrest
    exact ⟨by simpa using hm, (List.append_cancel_left hrest).symm⟩

/-- Segments can be read off a text in which each has a separator after it. -/
theorem separated_prefix_iff {segs segs' : List String} (h : ∀ s ∈ segs, Closed s.toList)
    (h' : ∀ s ∈ segs', Closed s.toList) : separated segs <+: separated segs' ↔ segs <+: segs' := by
  constructor
  · intro hprefix
    induction segs generalizing segs' with
    | nil => exact List.nil_prefix
    | cons s segs ih =>
      obtain ⟨hs, hsegs⟩ := List.forall_mem_cons.mp h
      obtain ⟨rest, hrest⟩ := hprefix
      cases segs' with
      | nil => simp [separated, separator] at hrest
      | cons t segs' =>
        obtain ⟨ht, hsegs'⟩ := List.forall_mem_cons.mp h'
        have hfirst : s.toList ++ separator ++ (separated segs ++ rest) =
            t.toList ++ separator ++ separated segs' := by
          simpa [separated] using hrest
        -- no separator begins inside a segment, so that the first segments end at the same place
        obtain ⟨hst, htail⟩ := hs.append_inj ht hfirst
        rw [String.toList_inj.mp hst, List.cons_prefix_cons]
        exact ⟨rfl, ih hsegs hsegs' ⟨rest, htail⟩⟩
  · rintro ⟨rest, rfl⟩
    exact ⟨separated rest, by simp [separated]⟩

/-- A path goes on from the paths that it starts with, and from no others. -/
theorem goesOn_path_iff {segs segs' : List String} (hne : segs ≠ []) (hne' : segs' ≠ [])
    (h : ∀ s ∈ segs, IsSegment s) (h' : ∀ s ∈ segs', IsSegment s) :
    GoesOn (shown (path segs)) (shown (path segs')) ↔ segs <+: segs' := by
  rw [GoesOn, shown_path_append hne fun s hs => (h s hs).isIdentifier,
    shown_path_append hne' fun s hs => (h' s hs).isIdentifier]
  exact separated_prefix_iff (fun s hs => (h s hs).closed) fun s hs => (h' s hs).closed

/-! ## Items that are told apart -/

/-- Two items are told apart by the identifiers of all their instances, whatever parameters they
have, exactly when neither name goes on from the other. Of two paths of segments that can be told
from separators, this holds unless one is the start of the other. -/
theorem monomorphize_separates_iff (owner owner' : String) :
    ((∀ c c' : Context, c.owner = owner → c'.owner = owner' →
        ∀ args args' id id', c.monomorphize args = .ok id → c'.monomorphize args' = .ok id' →
          id ≠ id') ↔ ¬ Confusable owner owner') ∧
      ∀ segs segs' : List String, segs ≠ [] → segs' ≠ [] → (∀ s ∈ segs, IsSegment s) →
        (∀ s ∈ segs', IsSegment s) → owner = path segs → owner' = path segs' →
          (Confusable owner owner' ↔ segs <+: segs' ∨ segs' <+: segs) := by
  refine ⟨⟨fun hapart hconfusable => ?_, fun hconfusable => ?_⟩, ?_⟩
  · obtain ⟨c, c', howner, howner', id, hid, hid'⟩ := hconfusable.exists_eq
    exact hapart c c' howner howner' [] [] id id hid hid' rfl
  · rintro c c' rfl rfl args args' id id' hid hid' rfl
    exact hconfusable (confusable_of_eq hid hid')
  · rintro segs segs' hne hne' h h' rfl rfl
    exact or_congr (goesOn_path_iff hne hne' h h') (goesOn_path_iff hne' hne h' h)

/-- Two items of one module, whose names hold underscores and a digit, have no identifier in
common. -/
theorem monomorphize_separates_siblings :
    (∀ s ∈ ["std", "B_1"], IsSegment s) ∧ (∀ s ∈ ["std", "_b"], IsSegment s) ∧
      ∀ c c' : Context, c.owner = "std::B_1" → c'.owner = "std::_b" →
        ∀ args args' id id', c.monomorphize args = .ok id → c'.monomorphize args' = .ok id' →
          id ≠ id' := by
  have h : ∀ s ∈ ["std", "B_1"], IsSegment s := by decide +kernel
  have h' : ∀ s ∈ ["std", "_b"], IsSegment s := by decide +kernel
  obtain ⟨hapart, hpaths⟩ := monomorphize_separates_iff "std::B_1" "std::_b"
  refine ⟨h, h', hapart.mpr fun hconfusable => ?_⟩
  have hprefix := (hpaths ["std", "B_1"] ["std", "_b"] (by simp) (by simp) h h' (by decide)
    (by decide)).mp hconfusable
  exact absurd hprefix (by decide)

/-- An identifier does not show whether two underscores stand for colons, nor whether they start a
segment of the path or an argument. -/
theorem monomorphize_confuses :
    let plain : Context := ⟨"a::B", [], []⟩
    let written : Context := ⟨"a__B", [], []⟩
    let nested : Context := ⟨"a::B_1", [], []⟩
    let outer : Context := ⟨"a", [⟨"B", .prim "u8", none⟩], []⟩
    plain.owner ≠ written.owner ∧ plain.monomorphize [] = .ok "a__B" ∧
      written.monomorphize [] = .ok "a__B" ∧ nested.owner ≠ outer.owner ∧
      nested.monomorphize [] = .ok "a__B_1" ∧
      outer.monomorphize [⟨"B", some (.integer 1)⟩] = .ok "a__B_1" := by
  decide +kernel

end Generics.Const.Context
