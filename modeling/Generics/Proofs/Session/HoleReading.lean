import Generics.Proofs.Session.HoleNames
import Generics.Proofs.Ty.Atoms

/-!
# Reading a text with its holes named

A text whose holes are named stands for the same type as before, in which the names have numbers where
they had lone underscores. The reader looks for a few words of the language, none of which has an
underscore, so a number never changes what it does.

## Main results

* `Hole.Renumbers`: a type with the holes in its names named;
* `Hole.Numbers.reads`: what is read from tokens with their holes named;
* `Hole.parse_nameAll`: the type that the text with its holes named stands for.
-/

namespace Generics.Hole

/-! ## Types -/

/-- Names the holes in the names of a type from the number `n` on. Gives the atoms and the number of the
next hole. -/
def numberAtoms (n : Nat) : List Ty.Atom → List Ty.Atom × Nat
  | [] => ([], n)
  | .var id :: as => (.var id :: (numberAtoms n as).1, (numberAtoms n as).2)
  | .name word applied :: as =>
    (.name (nameFrom n word).1 applied :: (numberAtoms (nameFrom n word).2 as).1,
      (numberAtoms (nameFrom n word).2 as).2)

/-- Atoms are numbered from left to right. -/
theorem numberAtoms_append (n : Nat) (as bs : List Ty.Atom) :
    numberAtoms n (as ++ bs) =
      ((numberAtoms n as).1 ++ (numberAtoms (numberAtoms n as).2 bs).1,
        (numberAtoms (numberAtoms n as).2 bs).2) := by
  induction as generalizing n with
  | nil => rfl
  | cons a as ih => cases a <;> simp [numberAtoms, ih]

/-- The second type is the first one with the holes in its names named from the number `n` on, and `m` is
the number of the next hole. -/
structure Renumbers (n : Nat) (t t' : Ty) (m : Nat) : Prop where
  frame : t'.frame = t.frame
  atoms : numberAtoms n t.atoms = (t'.atoms, m)

namespace Renumbers

variable {n k m : Nat}

-- the types of a list are the components of a tuple

theorem nil (n : Nat) : Renumbers n (.tuple []) (.tuple []) n := ⟨rfl, rfl⟩

theorem cons {t t' : Ty} {ts ts' : List Ty} (h : Renumbers n t t' k)
    (hs : Renumbers k (.tuple ts) (.tuple ts') m) :
    Renumbers n (.tuple (t :: ts)) (.tuple (t' :: ts')) m where
  frame := by
    have hframes : ts'.map Ty.frame = ts.map Ty.frame := by simpa [Ty.frame] using hs.frame
    simp [Ty.frame, h.frame, hframes]
  atoms := by
    show numberAtoms n (t.atoms ++ (Ty.tuple ts).atoms) = (t'.atoms ++ (Ty.tuple ts').atoms, m)
    rw [numberAtoms_append, h.atoms, hs.atoms]

theorem length_eq {ts ts' : List Ty} (h : Renumbers n (.tuple ts) (.tuple ts') m) :
    ts'.length = ts.length := by
  have hframes : ts'.map Ty.frame = ts.map Ty.frame := by simpa [Ty.frame] using h.frame
  simpa using congrArg List.length hframes

theorem fn {params params' : List Ty} {ret ret' : Ty}
    (h : Renumbers n (.tuple params) (.tuple params') k) (hret : Renumbers k ret ret' m) :
    Renumbers n (.fn params (some ret)) (.fn params' (some ret')) m where
  frame := by
    have hframes : params'.map Ty.frame = params.map Ty.frame := by simpa [Ty.frame] using h.frame
    simp [Ty.frame, hframes, hret.frame]
  atoms := by
    show numberAtoms n ((Ty.tuple params).atoms ++ ret.atoms) =
      ((Ty.tuple params').atoms ++ ret'.atoms, m)
    rw [numberAtoms_append, h.atoms, hret.atoms]

theorem named (word : String) (regions : List Region) {args args' : List Ty}
    (h : Renumbers (nameFrom n word).2 (.tuple args) (.tuple args') m) :
    Renumbers n (.named word regions args) (.named (nameFrom n word).1 regions args') m := by
  have hframes : args'.map Ty.frame = args.map Ty.frame := by simpa [Ty.frame] using h.frame
  have hbare := Ty.isBare_congr regions h.length_eq
  have hatoms : numberAtoms (nameFrom n word).2 (Ty.atomsList args) = (Ty.atomsList args', m) := h.atoms
  constructor
  · simp only [Ty.frame, Ty.frameList_eq_map, hbare, hframes]
  · rw [Ty.atoms, Ty.atoms, hbare, numberAtoms, hatoms]

/-- The names of primitives have no underscore. -/
theorem ofName (n : Nat) (word : String) :
    Renumbers n (Ty.ofName word) (Ty.ofName (nameFrom n word).1) (nameFrom n word).2 := by
  have hprims : ∀ prim ∈ Primitive.names, '_' ∉ prim.toList := by decide
  have hsame : Primitive.isName (nameFrom n word).1 = true ↔ Primitive.isName word = true := by
    rw [Primitive.isName, Primitive.isName, List.contains_iff_mem, List.contains_iff_mem]
    constructor
    · intro h
      rwa [(nameFrom_eq_iff (hprims _ h)).mp rfl]
    · intro h
      rwa [(nameFrom_eq_iff (hprims _ h)).mpr rfl]
  by_cases hword : Primitive.isName word = true
  · rw [nameFrom_of_notMem (hprims word (List.contains_iff_mem.mp hword)), Ty.ofName, if_pos hword]
    exact ⟨rfl, rfl⟩
  · rw [Ty.ofName, Ty.ofName, if_neg hword, if_neg (hsame.not.mpr hword)]
    exact .named word [] (.nil _)

theorem single {t t' : Ty} (h : Renumbers n (.tuple [t]) (.tuple [t']) m) : Renumbers n t t' m where
  frame := by simpa [Ty.frame] using h.frame
  atoms := by simpa [Ty.atoms] using h.atoms

theorem grouped {elems elems' : List Ty} (h : Renumbers n (.tuple elems) (.tuple elems') m)
    (trailing : Bool) : Renumbers n (Ty.grouped (elems, trailing)) (Ty.grouped (elems', trailing)) m := by
  have hlength := h.length_eq
  match elems, elems', trailing with
  | [t], [t'], false => exact h.single
  | [t], [t'], true => exact h
  | [], [], _ => exact h
  | _ :: _ :: _, _ :: _ :: _, _ => exact h

end Renumbers

/-! ## The reader -/

open Ty (Item Reads)

/-- From the tokens `us` an item is read that is the given one with the holes in its names named from the
number `n` on. The tokens after it are `rest` with the holes in their names named up to the number `m`. A
name may go on from a type in front of it, but not from a bracket. -/
def ReadsNumbered (n : Nat) (us rest : List Token) (m : Nat) : Item → Prop
  | .type t => ∃ t' rest' k, Reads us (.type t') rest' ∧ Renumbers n t t' k ∧ Numbers false k rest rest' m
  | .ret t => ∃ t' rest' k, Reads us (.ret t') rest' ∧ Renumbers n t t' k ∧ Numbers false k rest rest' m
  | .list elems comma => ∃ elems' rest' k, Reads us (.list elems' comma) rest' ∧
      Renumbers n (.tuple elems) (.tuple elems') k ∧ Numbers true k rest rest' m
  | .args regions types => ∃ types' rest' k, Reads us (.args regions types') rest' ∧
      Renumbers n (.tuple types) (.tuple types') k ∧ Numbers true k rest rest' m

/-- A comma is the last thing in a list exactly when it is in the list with its holes named. -/
theorem Renumbers.isEmpty_eq {n m : Nat} {ts ts' : List Ty}
    (h : Renumbers n (.tuple ts) (.tuple ts') m) : ts'.isEmpty = ts.isEmpty := by
  rw [Bool.eq_iff_iff, List.isEmpty_iff_length_eq_zero, List.isEmpty_iff_length_eq_zero, h.length_eq]

/-- From tokens with the holes in their names named the same is read, with the holes in its names named. -/
theorem Numbers.reads {n m : Nat} {ts us rest : List Token} (hus : Numbers true n ts us m) {x : Item}
    (h : Reads ts x rest) : ReadsNumbered n us rest m x := by
  -- the marks and words that choose the rule are the same in both lists of tokens
  induction h generalizing n us with
  | @var digits id _ hid =>
    cases hus with
    | var _ _ hus => exact ⟨.var id, _, n, .var hid, ⟨rfl, rfl⟩, hus⟩
    | mark _ htok => cases htok
  | fn _ _ ihparams ihret =>
    obtain ⟨us', rfl, hus'⟩ := hus.exists_word (by decide)
    obtain ⟨opened, rfl, hopened⟩ := hus'.exists_mark rfl
    obtain ⟨_, after, k, hparams', hparams, hafter⟩ := ihparams hopened
    obtain ⟨_, rest', l, hret', hret, hrest⟩ := ihret hafter
    exact ⟨_, rest', l, .fn hparams' hret', hparams.fn hret, hrest⟩
  | @name word _ hfn hts =>
    have hfn' : (nameFrom n word).1 ≠ "fn" := (nameFrom_eq_iff (by decide)).not.mpr hfn
    obtain ⟨us', rfl, hus'⟩ := hus.exists_ident
    exact ⟨_, us', _, .name hfn' ((hus'.head?_eq_iff rfl).not.mpr hts), .ofName n word,
      hus'.of_apart false⟩
  | @applied word _ _ regions _ hfn _ ihargs =>
    have hfn' : (nameFrom n word).1 ≠ "fn" := (nameFrom_eq_iff (by decide)).not.mpr hfn
    obtain ⟨us', rfl, hus'⟩ := hus.exists_ident
    obtain ⟨opened, rfl, hopened⟩ := hus'.exists_mark rfl
    obtain ⟨_, rest', k, hargs', hargs, hrest⟩ := ihargs hopened
    exact ⟨_, rest', k, .applied hfn' hargs', .named word regions hargs,
      hrest.of_apart false⟩
  | @paren _ _ _ comma _ ihelems =>
    obtain ⟨us', rfl, hus'⟩ := hus.exists_mark rfl
    obtain ⟨_, rest', k, helems', helems, hrest⟩ := ihelems hus'
    exact ⟨_, rest', k, .paren helems', helems.grouped comma, hrest.of_apart false⟩
  | @array _ _ _ _ size _ hsize ihelem =>
    obtain ⟨us', rfl, hus'⟩ := hus.exists_mark rfl
    obtain ⟨_, after, k, helem', helem, hafter⟩ := ihelem hus'
    obtain ⟨sizes, rfl, hsizes⟩ := hafter.exists_mark rfl
    cases hsizes with
    | number _ _ hsizes =>
      obtain ⟨rest', rfl, hrest⟩ := hsizes.exists_mark rfl
      exact ⟨_, rest', k, .array helem' hsize,
        ⟨congrArg (Ty.array · size) helem.frame, helem.atoms⟩, hrest.of_apart false⟩
    | mark _ htok => cases htok
  | ref _ ihinner =>
    have hmut : '_' ∉ "mut".toList := by decide
    obtain ⟨us', rfl, hus'⟩ := hus.exists_mark rfl
    obtain ⟨hregion, hafter⟩ := hus'.region
    obtain ⟨_, rest', k, hinner', hinner, hrest⟩ := ihinner (hafter.afterWord hmut)
    rw [← hregion, ← hafter.startsWith_eq hmut]
    exact ⟨_, rest', k, .ref hinner', ⟨congrArg (Ty.ref _ _) hinner.frame, hinner.atoms⟩, hrest⟩
  | @ptr word _ _ _ hword _ ihinner =>
    have hplain : '_' ∉ word.toList := by rcases hword with rfl | rfl <;> decide
    obtain ⟨us', rfl, hus'⟩ := hus.exists_mark rfl
    obtain ⟨us'', rfl, hus''⟩ := hus'.exists_word hplain
    obtain ⟨_, rest', k, hinner', hinner, hrest⟩ := ihinner hus''
    exact ⟨_, rest', k, .ptr hword hinner', ⟨congrArg (Ty.ptr _) hinner.frame, hinner.atoms⟩,
      hrest⟩
  | never =>
    obtain ⟨us', rfl, hus'⟩ := hus.exists_mark rfl
    exact ⟨_, us', n, .never, ⟨rfl, rfl⟩, hus'.of_apart false⟩
  | arrow _ ihret =>
    obtain ⟨us', rfl, hus'⟩ := hus.exists_mark rfl
    obtain ⟨_, rest', k, hret', hret, hrest⟩ := ihret hus'
    exact ⟨_, rest', k, .arrow hret', hret, hrest⟩
  | noArrow hts =>
    exact ⟨_, us, n, .noArrow ((hus.head?_eq_iff rfl).not.mpr hts), .nil n,
      hus.of_apart false⟩
  | noElems =>
    obtain ⟨us', rfl, hus'⟩ := hus.exists_mark rfl
    exact ⟨_, us', n, .noElems, .nil n, hus'⟩
  | lastElem _ ihelem =>
    obtain ⟨_, after, k, helem', helem, hafter⟩ := ihelem hus
    obtain ⟨rest', rfl, hrest⟩ := hafter.exists_mark rfl
    exact ⟨_, rest', k, .lastElem helem', helem.cons (.nil k), hrest⟩
  | elem _ _ ihelem ihelems =>
    obtain ⟨_, after, k, helem', helem, hafter⟩ := ihelem hus
    obtain ⟨us', rfl, hus'⟩ := hafter.exists_mark rfl
    obtain ⟨_, rest', l, helems', helems, hrest⟩ := ihelems hus'
    rw [← helems.isEmpty_eq]
    exact ⟨_, rest', l, .elem helem' helems', helem.cons helems, hrest⟩
  | noArgs =>
    obtain ⟨us', rfl, hus'⟩ := hus.exists_mark rfl
    exact ⟨_, us', n, .noArgs, .nil n, hus'⟩
  | lastRegion =>
    obtain ⟨us', rfl, hus'⟩ := hus.exists_mark rfl
    obtain ⟨rest', rfl, hrest⟩ := hus'.exists_mark rfl
    exact ⟨_, rest', n, .lastRegion, .nil n, hrest⟩
  | region _ ihargs =>
    obtain ⟨us', rfl, hus'⟩ := hus.exists_mark rfl
    obtain ⟨us'', rfl, hus''⟩ := hus'.exists_mark rfl
    obtain ⟨_, rest', k, hargs', hargs, hrest⟩ := ihargs hus''
    exact ⟨_, rest', k, .region hargs', hargs, hrest⟩
  | lastArg _ iharg =>
    obtain ⟨_, after, k, harg', harg, hafter⟩ := iharg hus
    obtain ⟨rest', rfl, hrest⟩ := hafter.exists_mark rfl
    exact ⟨_, rest', k, .lastArg harg', harg.cons (.nil k), hrest⟩
  | arg _ _ iharg ihargs =>
    obtain ⟨_, after, k, harg', harg, hafter⟩ := iharg hus
    obtain ⟨us', rfl, hus'⟩ := hafter.exists_mark rfl
    obtain ⟨_, rest', l, hargs', hargs, hrest⟩ := ihargs hus'
    exact ⟨_, rest', l, .arg harg' hargs', harg.cons hargs, hrest⟩

/-- The text with its holes named stands for the same type, with the holes in its names named. -/
theorem parse_nameAll {text : String} {t : Ty} (h : Ty.parse text = .ok t) :
    ∃ t', Ty.parse (nameAll text).1 = .ok t' ∧ Renumbers 0 t t' (nameAll text).2 := by
  obtain ⟨toks, hscan, hread⟩ := Ty.parse_eq_ok_iff.mp h
  have hfront : ¬ Glued none := by rintro ⟨_, ⟨⟩, _⟩
  obtain ⟨toks', hscan', hnumbers⟩ := exists_scan_nameChars hscan none 0 true fun _ => .inl hfront
  obtain ⟨t', rest, k, hreads, hnumbered, hrest⟩ := hnumbers.reads (Ty.read?_eq_some_iff.mp hread)
  cases hrest with
  | nil =>
    have hread' := Ty.read?_eq_some_iff.mpr hreads
    exact ⟨t', Ty.parse_ofList_eq_ok_iff.mpr ⟨toks', hscan', hread'⟩, hnumbered⟩

end Generics.Hole
