import Generics.Proofs.Region.Elision
import Generics.Proofs.Region.Known
import Mathlib.Data.List.Nodup

/-!
# Placeholders of higher-ranked types

The placeholder for a quantified region is the name of the region and then the number of placeholders
that exist. Nothing stands between the two, so digits at the end of a name can be taken for the first
digits of a number: `'a1` with number 1 and `'a` with number 11 both give `'^a11`.

## Main results

* `RegionSolver.Entered`: the placeholders that a solver in use has returned;
* `RegionSolver.placeholder_eq_iff`: when two placeholders are one;
* `RegionSolver.Entered.nodup_placeholders_iff`: when all placeholders differ.
-/

namespace Generics

/-- The name of the region without its quote. -/
def Region.stem (q : Region) : List Char :=
  match q.name.toList with
  | '\'' :: cs => cs
  | cs => cs

namespace RegionSolver

/-! ## Two placeholders -/

/-- The earlier name goes on with digits `d`, which the later number begins with. -/
def Runs (a b : Region) (i j : Nat) (d : List Char) : Prop :=
  a.stem = b.stem ++ d ∧ Text.decimal j = d ++ Text.decimal i

/-- Digits before a number do not make it smaller. -/
theorem le_of_decimal_eq_append {i j : Nat} {d : List Char}
    (h : Text.decimal j = d ++ Text.decimal i) : i ≤ j := by
  have hread : Nat.ofDigitChars 10 (Text.decimal j) 0 =
      Nat.ofDigitChars 10 (d ++ Text.decimal i) 0 := by rw [h]
  rw [Text.decimal, Nat.ofDigitChars_ten_toDigits, Nat.ofDigitChars_append,
    Nat.ofDigitChars_eq_ofDigitChars_zero, Text.decimal, Nat.ofDigitChars_ten_toDigits] at hread
  omega

/-- Two placeholders are one if and only if the earlier name goes on with the digits that the later
number has more. -/
theorem placeholder_eq_iff {a b : Region} {i j : Nat} (hij : i < j) :
    placeholder a i = placeholder b j ↔ ∃ d, Runs a b i j d := by
  have hchars : placeholder a i = placeholder b j ↔
      a.stem ++ Text.decimal i = b.stem ++ Text.decimal j := by
    show (Region.mk (String.ofList ('\'' :: '^' :: (a.stem ++ Text.decimal i))) =
      Region.mk (String.ofList ('\'' :: '^' :: (b.stem ++ Text.decimal j)))) ↔ _
    rw [Region.mk.injEq, String.ofList_inj, List.cons_inj_right, List.cons_inj_right]
  rw [hchars, List.append_eq_append_iff]
  constructor
  · rintro (⟨d, -, hd⟩ | ⟨d, hstem, hd⟩)
    · -- the later name cannot be the longer one: its number would be the smaller one
      exact absurd (le_of_decimal_eq_append hd) (Nat.not_le.mpr hij)
    · exact ⟨d, hstem, hd⟩
  · rintro ⟨d, hstem, hd⟩
    exact .inr ⟨d, hstem, hd⟩

/-- The name that goes on ends in a digit. -/
theorem Runs.exists_getLast? {a b : Region} {i j : Nat} {d : List Char} (hij : i < j)
    (h : Runs a b i j d) : ∃ c, a.stem.getLast? = some c ∧ c.isDigit = true := by
  obtain ⟨hstem, hd⟩ := h
  have hne : d ≠ [] := by
    rintro rfl
    exact absurd (Text.decimal_injective hd) (Nat.ne_of_gt hij)
  refine ⟨d.getLast hne, ?_, Text.isDigit_of_mem_decimal (n := j) ?_⟩
  · rw [hstem, List.getLast?_append_of_ne_nil _ hne, List.getLast?_eq_some_getLast hne]
  · rw [hd]
    exact List.mem_append_left _ (List.getLast_mem hne)

/-- The later number has at least two digits. -/
theorem Runs.ten_le {a b : Region} {i j : Nat} {d : List Char} (hij : i < j)
    (h : Runs a b i j d) : 10 ≤ j := by
  obtain ⟨-, hd⟩ := h
  by_contra hlt
  have hone : (Text.decimal j).length = 1 := by
    rw [Text.decimal, Nat.toDigits_of_lt_base (Nat.not_le.mp hlt)]
    rfl
  have hpos := List.length_pos_iff.mpr (Text.decimal_ne_nil i)
  have hnil : d = [] := by
    rw [hd, List.length_append] at hone
    exact List.length_eq_zero_iff.mp (by omega)
  rw [hnil] at hd
  exact absurd (Text.decimal_injective hd) (Nat.ne_of_gt hij)

/-! ## Solvers in use -/

/-- An operation of the solver other than entering a higher-ranked type. -/
inductive Aside (sv : RegionSolver) : RegionSolver → Prop
  | declare (params : List RegionParam) : Aside sv (sv.declare params).1
  | fresh : Aside sv sv.fresh.2
  | add (cs : List RegionConstraint) : Aside sv (sv.add cs)
  | elide (sig : Signature) : Aside sv (sv.elide sig).1
  | solve (s : Subst) : Aside sv (sv.solve s).1
  | variance (s : Subst) (r : Region) : Aside sv (sv.variance s r).1

/-- The solver was new once and since then has returned the placeholders `created` for the quantified
regions `quantified`, in one or more calls and with other operations in between. -/
inductive Entered : RegionSolver → (quantified created : List Region) → Prop
  | new (limit : Int) : Entered { limit } [] []
  | enter {sv : RegionSolver} {quantified created : List Region} (h : Entered sv quantified created)
      (t : Ty) (names : List Region) :
      Entered (sv.enter t names).2.2 (quantified ++ names) (created ++ (sv.enter t names).2.1)
  | aside {sv sv' : RegionSolver} {quantified created : List Region}
      (h : Entered sv quantified created) (hstep : sv.Aside sv') : Entered sv' quantified created

theorem Grows.placeholders_eq {sv sv' : RegionSolver} (h : sv.Grows sv') :
    sv'.placeholders = sv.placeholders := by
  obtain ⟨resolution, rfl⟩ := h.exists_eq
  rfl

theorem Aside.placeholders_eq {sv sv' : RegionSolver} (h : sv.Aside sv') :
    sv'.placeholders = sv.placeholders := by
  cases h with
  | declare params =>
    obtain ⟨accepted, variances, -, hdeclare⟩ := exists_declare sv params
    rw [hdeclare]
  | fresh => rfl
  | add cs => rfl
  | elide sig =>
    obtain ⟨filled, -, helide⟩ := exists_elide sv sig
    rw [helide]
    rfl
  | solve s => exact (grows_solve sv s).placeholders_eq
  | variance s r =>
    unfold RegionSolver.variance
    split
    · rfl
    · rfl

/-- The placeholders for regions if all of them differ: each has its position for a number. -/
def numberedPlaceholders (quantified : List Region) : List Region :=
  quantified.zipIdx.map fun (q, i) => placeholder q i

theorem numberedPlaceholders_concat (quantified : List Region) (q : Region) :
    numberedPlaceholders (quantified ++ [q]) =
      numberedPlaceholders quantified ++ [placeholder q quantified.length] := by
  simp [numberedPlaceholders, List.zipIdx_append]

/-- The placeholders of a solver are those that it has returned. As long as they differ, or would if
they were numbered by their positions, they are numbered by their positions. -/
structure Tracks (sv : RegionSolver) (quantified created : List Region) : Prop where
  nodup : sv.placeholders.Nodup
  mem_iff : ∀ p, p ∈ sv.placeholders ↔ p ∈ created
  eq : created.Nodup ∨ (numberedPlaceholders quantified).Nodup →
    created = numberedPlaceholders quantified

section

variable {sv : RegionSolver} {quantified created : List Region}

theorem Tracks.length (h : Tracks sv quantified created) (hcreated : created.Nodup) :
    sv.placeholders.length = quantified.length := by
  have hperm : sv.placeholders.Perm created :=
    (List.perm_ext_iff_of_nodup h.nodup hcreated).mpr h.mem_iff
  rw [hperm.length_eq, h.eq (.inl hcreated), numberedPlaceholders, List.length_map,
    List.length_zipIdx]

/-- One more placeholder. -/
theorem Tracks.concat (h : Tracks sv quantified created) (q : Region) :
    Tracks { sv with placeholders := sv.placeholders.insert (placeholder q sv.placeholders.length) }
      (quantified ++ [q]) (created ++ [placeholder q sv.placeholders.length]) where
  nodup := h.nodup.insert
  mem_iff p := by
    rw [List.mem_insert_iff, h.mem_iff, List.mem_append, List.mem_singleton, or_comm]
  eq hnodup := by
    rw [numberedPlaceholders_concat] at hnodup ⊢
    -- the earlier ones differ in either case
    have hcreated : created = numberedPlaceholders quantified :=
      h.eq (hnodup.imp (·.of_append_left) (·.of_append_left))
    -- so none was lost when it was inserted, and the number of them is the position
    have hlength : sv.placeholders.length = quantified.length := by
      refine h.length ?_
      rcases hnodup with hnodup | hnodup
      · exact hnodup.of_append_left
      · rw [hcreated]
        exact hnodup.of_append_left
    rw [hlength, hcreated]

theorem Tracks.placehold (h : Tracks sv quantified created) (names : List Region) :
    Tracks (sv.placehold names).2 (quantified ++ names) (created ++ (sv.placehold names).1) := by
  induction names generalizing sv quantified created with
  | nil => simpa [RegionSolver.placehold] using h
  | cons q names ih =>
    have hnext := ih (h.concat q)
    rw [List.append_assoc, List.append_assoc] at hnext
    exact hnext

theorem Entered.tracks (h : Entered sv quantified created) : Tracks sv quantified created := by
  induction h with
  | new limit => exact ⟨List.nodup_nil, fun p => Iff.rfl, fun _ => rfl⟩
  | enter _ t names ih => exact ih.placehold names
  | aside _ hstep ih =>
    refine ⟨?_, ?_, ih.eq⟩
    · rw [hstep.placeholders_eq]
      exact ih.nodup
    · rw [hstep.placeholders_eq]
      exact ih.mem_iff

theorem getElem?_numberedPlaceholders (quantified : List Region) (i : Nat) :
    (numberedPlaceholders quantified)[i]? = quantified[i]?.map fun q => placeholder q i := by
  rw [numberedPlaceholders, List.getElem?_map, List.getElem?_zipIdx, Option.map_map, Nat.zero_add]
  rfl

/-- Placeholders that are numbered by their positions differ if no two names run into one. -/
theorem nodup_numberedPlaceholders_iff :
    (numberedPlaceholders quantified).Nodup ↔ ∀ i j a b, i < j → quantified[i]? = some a →
      quantified[j]? = some b → ¬ ∃ d, Runs a b i j d := by
  rw [List.nodup_iff_getElem?_ne_getElem?]
  constructor
  · intro hne i j a b hij ha hb hruns
    have hj : j < (numberedPlaceholders quantified).length := by
      rw [numberedPlaceholders, List.length_map, List.length_zipIdx]
      exact (List.getElem?_eq_some_iff.mp hb).1
    refine hne i j hij hj ?_
    rw [getElem?_numberedPlaceholders, getElem?_numberedPlaceholders, ha, hb]
    exact congrArg some ((placeholder_eq_iff hij).mpr hruns)
  · intro hruns i j hij hj heq
    rw [numberedPlaceholders, List.length_map, List.length_zipIdx] at hj
    rw [getElem?_numberedPlaceholders, getElem?_numberedPlaceholders, List.getElem?_eq_getElem hj,
      List.getElem?_eq_getElem (Nat.lt_trans hij hj)] at heq
    exact hruns i j _ _ hij (List.getElem?_eq_getElem _) (List.getElem?_eq_getElem _)
      ((placeholder_eq_iff hij).mp (Option.some.inj heq))

/-- All placeholders that a solver has returned differ if and only if no two names run into one with
the digits of their positions. They differ if no name ends in a digit, and if there are no more than
ten. -/
theorem Entered.nodup_placeholders_iff (h : Entered sv quantified created) :
    (created.Nodup ↔ ∀ i j a b, i < j → quantified[i]? = some a → quantified[j]? = some b →
      ¬ ∃ d, Runs a b i j d) ∧
    ((∀ q ∈ quantified, ∀ c, q.stem.getLast? = some c → c.isDigit = false) → created.Nodup) ∧
    (quantified.length ≤ 10 → created.Nodup) := by
  -- as long as one of the two lists has no repetition, they are the same
  have hnodup : created.Nodup ↔ ∀ i j a b, i < j → quantified[i]? = some a →
      quantified[j]? = some b → ¬ ∃ d, Runs a b i j d := by
    rw [← nodup_numberedPlaceholders_iff]
    constructor
    · intro hcreated
      rwa [← h.tracks.eq (.inl hcreated)]
    · intro hnumbered
      rwa [h.tracks.eq (.inr hnumbered)]
  refine ⟨hnodup, fun hlast => hnodup.mpr ?_, fun hlength => hnodup.mpr ?_⟩
  · rintro i j a b hij ha - ⟨d, hruns⟩
    obtain ⟨c, hc, hdigit⟩ := hruns.exists_getLast? hij
    rw [hlast a (List.mem_of_getElem? ha) c hc] at hdigit
    cases hdigit
  · rintro i j a b hij - hb ⟨d, hruns⟩
    have hj := (List.getElem?_eq_some_iff.mp hb).1
    exact absurd (hruns.ten_le hij) (by omega)

end

/-- Two types entered one after the other, with a digit at the end of the first name. -/
theorem nodup_two_calls :
    ∃ sv, Entered sv [⟨"'a1"⟩, ⟨"'a"⟩, ⟨"'b"⟩] [⟨"'^a10"⟩, ⟨"'^a1"⟩, ⟨"'^b2"⟩] ∧
      [(⟨"'^a10"⟩ : Region), ⟨"'^a1"⟩, ⟨"'^b2"⟩].Nodup := by
  have h : Entered _ _ _ := ((Entered.new 100).enter (.prim "u8") [⟨"'a1"⟩]).aside .fresh
  have h' : Entered _ [⟨"'a1"⟩, ⟨"'a"⟩, ⟨"'b"⟩] [⟨"'^a10"⟩, ⟨"'^a1"⟩, ⟨"'^b2"⟩] :=
    h.enter (.prim "u8") [⟨"'a"⟩, ⟨"'b"⟩]
  exact ⟨_, h', h'.nodup_placeholders_iff.2.2 (by decide)⟩

/-- Twelve different names quantified in one type, of which two get the same placeholder. -/
theorem not_nodup_twelve :
    ∃ quantified : List Region, quantified.Nodup ∧
      ¬ (({} : RegionSolver).enter (.prim "u8") quantified).2.1.Nodup := by
  refine ⟨[⟨"'b"⟩, ⟨"'a1"⟩, ⟨"'c"⟩, ⟨"'d"⟩, ⟨"'e"⟩, ⟨"'f"⟩, ⟨"'g"⟩, ⟨"'h"⟩, ⟨"'i"⟩, ⟨"'j"⟩, ⟨"'k"⟩,
    ⟨"'a"⟩], by decide, by decide⟩

end RegionSolver

end Generics
