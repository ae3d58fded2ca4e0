import Generics.Proofs.Ty.Scan
import Generics.Ty.Primitive
import Generics.Ty.Printer

/-!
# The tokens of a printed type

The printer writes characters. `Ty.tokens` is the same print in tokens, and the scanner splits the
printed text into just these, provided that every name in the type is one that can be written.

## Main results

* `Ty.Spellable`: every name of the type can be written;
* `Ty.Spellable.spells`: the printed text spells the tokens of the type.
-/

namespace Generics

/-- The token of a region in the list of arguments of a name. -/
def Region.argToken (r : Region) : Token := .region (if r.isElided then "'_" else r.name)

/-- The region can be written: it is left out, or a region token other than `'_`. -/
def Region.isSpellable (r : Region) : Bool :=
  r.isElided || Token.isRegion r.name.toList && r.name ≠ "'_"

namespace Ty

open Token (Spells)
open Text

mutual

/-- The tokens of a printed type. -/
def tokens : Ty → List Token
  | .prim name => [if name = "!" then .sym '!' else .ident name]
  | .var id => [.var (String.ofList (decimal id.toNat))]
  | .tuple elems =>
    match tokensList elems with
    | [part] => .sym '(' :: part ++ [.sym ',', .sym ')']
    | parts => .sym '(' :: Token.commaSep parts ++ [.sym ')']
  | .array elem size =>
    .sym '[' :: elem.tokens ++ [.sym ';', .number (String.ofList (decimal size.toNat)), .sym ']']
  | .ref region isMut inner =>
    .sym '&' :: (if region.isElided then [] else [.region region.name]) ++
      (if isMut then [.ident "mut"] else []) ++ inner.tokens
  | .ptr isMut inner => .sym '*' :: .ident (if isMut then "mut" else "const") :: inner.tokens
  | .fn params none => .ident "fn" :: .sym '(' :: Token.commaSep (tokensList params) ++ [.sym ')']
  | .fn params (some ret) =>
    .ident "fn" :: .sym '(' :: Token.commaSep (tokensList params) ++
      .sym ')' :: if ret.isUnit then [] else .arrow :: ret.tokens
  | .named name regions args =>
    match regions.map (fun r => [r.argToken]) ++ tokensList args with
    | [] => [.ident name]
    | parts => .ident name :: .sym '<' :: Token.commaSep parts ++ [.sym '>']

/-- The tokens of each type of a list. -/
def tokensList : List Ty → List (List Token)
  | [] => []
  | t :: ts => t.tokens :: tokensList ts

end

@[simp] theorem tokensList_eq_map (ts : List Ty) : tokensList ts = ts.map tokens := by
  induction ts with
  | nil => rfl
  | cons t ts ih => simp [tokensList, ih]

mutual

/-- The type and all types in it have the property. -/
def everywhere (p : Ty → Bool) : Ty → Bool
  | .prim name => p (.prim name)
  | .var id => p (.var id)
  | .tuple elems => p (.tuple elems) && everywhereList p elems
  | .array elem size => p (.array elem size) && elem.everywhere p
  | .ref region isMut inner => p (.ref region isMut inner) && inner.everywhere p
  | .ptr isMut inner => p (.ptr isMut inner) && inner.everywhere p
  | .fn params none => p (.fn params none) && everywhereList p params
  | .fn params (some ret) =>
    p (.fn params (some ret)) && (everywhereList p params && ret.everywhere p)
  | .named name regions args => p (.named name regions args) && everywhereList p args

/-- All types of a list and all types in them have the property. -/
def everywhereList (p : Ty → Bool) : List Ty → Bool
  | [] => true
  | t :: ts => t.everywhere p && everywhereList p ts

end

theorem everywhereList_iff {p : Ty → Bool} {ts : List Ty} :
    everywhereList p ts = true ↔ ∀ t ∈ ts, t.everywhere p = true := by
  induction ts with
  | nil => simp [everywhereList]
  | cons t ts ih => simp [everywhereList, ih]

theorem everywhere_iff {p : Ty → Bool} {t : Ty} :
    t.everywhere p = true ↔ p t = true ∧ ∀ u ∈ t.children, u.everywhere p = true := by
  cases t with
  | fn params ret =>
    cases ret <;> simp [everywhere, children, everywhereList_iff, or_imp, forall_and]
  | _ => simp [everywhere, children, everywhereList_iff]

/-- Induction on types through their components. -/
theorem children_ind {motive : Ty → Prop} (step : ∀ t : Ty, (∀ u ∈ t.children, motive u) → motive t)
    (t : Ty) : motive t := by
  induction t with
  | prim name => exact step _ nofun
  | var id => exact step _ nofun
  | tuple elems ih => exact step _ ih
  | array elem size ih => exact step _ (by simpa [children] using ih)
  | ref region isMut inner ih => exact step _ (by simpa [children] using ih)
  | ptr isMut inner ih => exact step _ (by simpa [children] using ih)
  | fn params ret ih ihret =>
    refine step _ fun u hu => ?_
    rcases List.mem_append.mp hu with hu | hu
    · exact ih u hu
    · exact ihret u (Option.mem_toList.mp hu)
  | named name regions args ih => exact step _ ih

theorem everywhere_mono {p q : Ty → Bool} {t : Ty} (h : t.everywhere p = true)
    (hpq : ∀ u : Ty, u.everywhere p = true → q u = true) : t.everywhere q = true := by
  induction t using children_ind with
  | step t ih =>
    exact everywhere_iff.mpr ⟨hpq t h, fun u hu => ih u hu ((everywhere_iff.mp h).2 u hu)⟩

/-- The names at the root of the type can be written: a built-in type has one of the built-in names,
any other name is an identifier other than `fn`, regions can be written, and a function has a return
type. -/
def rootSpellable : Ty → Bool
  | .prim name => Primitive.isName name
  | .ref region _ _ => region.isSpellable
  | .fn _ ret => ret.isSome
  | .named name regions _ =>
    Token.isIdent name.toList && name ≠ "fn" && regions.all Region.isSpellable
  | .var _ | .tuple _ | .array _ _ | .ptr _ _ => true

/-- Every name in the type can be written. -/
def Spellable (t : Ty) : Prop := t.everywhere rootSpellable = true

instance (t : Ty) : Decidable t.Spellable := inferInstanceAs (Decidable (_ = true))

theorem spellable_iff {t : Ty} :
    t.Spellable ↔ t.rootSpellable = true ∧ ∀ u ∈ t.children, u.Spellable := everywhere_iff

theorem forall₂_map {ts : List Ty} (h : ∀ t ∈ ts, Spells t.chars t.tokens) :
    List.Forall₂ Spells (ts.map chars) (ts.map tokens) := by
  rw [List.forall₂_map_left_iff, List.forall₂_map_right_iff, List.forall₂_same]
  exact h

/-- The built-in names are identifiers, apart from `!`. -/
theorem isIdent_of_isName {name : String} (h : Primitive.isName name = true) (hnever : name ≠ "!") :
    Token.isIdent name.toList = true := by
  have hall : ∀ n ∈ Primitive.names, n ≠ "!" → Token.isIdent n.toList = true := by decide +kernel
  exact hall name (List.contains_iff_mem.mp h) hnever

/-- A list in parentheses. -/
theorem spells_parenthesized {parts : List (List Char)} {toks : List (List Token)}
    (h : List.Forall₂ Spells parts toks) :
    Spells ('(' :: Text.commaSep parts ++ [')']) (.sym '(' :: Token.commaSep toks ++ [.sym ')']) :=
  ((Token.Spells.commaSep h).then_sym (by decide) Token.spells_nil).sym (by decide)

/-- A list between brackets after a name. -/
theorem spells_applied {name : String} (hname : Token.isIdent name.toList = true)
    {parts : List (List Char)} {toks : List (List Token)} (opening closing : Char)
    (h : List.Forall₂ Spells parts toks) (ho : opening ∈ Token.symbols) (hc : closing ∈ Token.symbols)
    {cs : List Char} {after : List Token} (hcs : Spells cs after) :
    Spells (name.toList ++ (opening :: Text.commaSep parts ++ closing :: cs))
      (.ident name :: .sym opening :: Token.commaSep toks ++ .sym closing :: after) :=
  (Token.spells_ident name hname).then_sym ho ((Token.Spells.commaSep h).then_sym hc hcs)

theorem spells_region_args {regions : List Region} (h : regions.all Region.isSpellable = true) :
    List.Forall₂ Spells (regions.map Region.argChars) (regions.map fun r => [r.argToken]) := by
  rw [List.forall₂_map_left_iff, List.forall₂_map_right_iff, List.forall₂_same]
  intro r hr
  unfold Region.argChars Region.argToken
  by_cases helided : r.isElided = true
  · rw [if_pos helided, if_pos helided]
    exact Token.spells_region "'_" (by decide)
  · rw [if_neg helided, if_neg helided]
    have hregion := List.all_eq_true.mp h r hr
    simp only [Region.isSpellable, helided, Bool.false_or, Bool.and_eq_true] at hregion
    exact Token.spells_region r.name hregion.1

/-- The scanner splits a printed type into its tokens. -/
theorem Spellable.spells {t : Ty} (h : t.Spellable) : Spells t.chars t.tokens := by
  induction t with
  | prim name =>
    rw [chars, tokens]
    by_cases hnever : name = "!"
    · subst hnever
      exact Token.spells_nil.sym (by decide)
    · rw [if_neg hnever]
      exact Token.spells_ident name (isIdent_of_isName h hnever)
  | var id => exact Token.spells_var _
  | tuple elems ih =>
    have helems : ∀ t ∈ elems, Spells t.chars t.tokens := fun t ht =>
      ih t ht ((spellable_iff.mp h).2 t ht)
    rw [chars, tokens, charsList_eq_map, tokensList_eq_map]
    -- a tuple of one element is printed with a comma before the bracket
    rcases elems with _ | ⟨t, _ | ⟨u, ts⟩⟩
    · exact spells_parenthesized (forall₂_map helems)
    · have ht : Spells t.chars t.tokens := helems t (by simp)
      have hclose := Token.spells_nil.sym (c := ')') (by decide)
      simpa using (ht.then_sym (c := ',') (by decide) hclose).sym (c := '(') (by decide)
    · exact spells_parenthesized (forall₂_map helems)
  | array elem size ih =>
    have helem := ih ((spellable_iff.mp h).2 elem (by simp [children]))
    have hsize := (Token.spells_number size.toNat).then_sym (c := ']') (by decide) Token.spells_nil
    rw [chars, tokens]
    simpa using (helem.then_sym (c := ';') (by decide) hsize.blank).sym (c := '[') (by decide)
  | ref region isMut inner ih =>
    have hinner := ih ((spellable_iff.mp h).2 inner (by simp [children]))
    have hmut : Spells ((if isMut then ['m', 'u', 't', ' '] else []) ++ inner.chars)
        ((if isMut then [.ident "mut"] else []) ++ inner.tokens) := by
      cases isMut
      · exact hinner
      · exact (Token.spells_ident "mut" (by decide)).then_blank hinner
    rw [chars, tokens, List.cons_append, List.cons_append, List.append_assoc, List.append_assoc]
    refine Token.Spells.sym (by decide) ?_
    by_cases helided : region.isElided = true
    · simpa [helided] using hmut
    · have hregion : region.isSpellable = true := (spellable_iff.mp h).1
      simp only [Region.isSpellable, helided, Bool.false_or, Bool.and_eq_true] at hregion
      simpa [helided] using (Token.spells_region region.name hregion.1).then_blank hmut
  | ptr isMut inner ih =>
    have hinner := ih ((spellable_iff.mp h).2 inner (by simp [children]))
    cases isMut
    · exact ((Token.spells_ident "const" (by decide)).then_blank hinner).sym (by decide)
    · exact ((Token.spells_ident "mut" (by decide)).then_blank hinner).sym (by decide)
  | fn params ret ih ihret =>
    obtain ⟨hsome, hbelow⟩ := spellable_iff.mp h
    obtain ⟨ret, rfl⟩ := Option.isSome_iff_exists.mp hsome
    have hparams : ∀ t ∈ params, Spells t.chars t.tokens := fun t ht =>
      ih t ht (hbelow t (by simp [children, ht]))
    have hret := ihret ret rfl (hbelow ret (by simp [children]))
    have harrow : Spells (if ret.isUnit then [] else [' ', '-', '>', ' '] ++ ret.chars)
        (if ret.isUnit then [] else .arrow :: ret.tokens) := by
      by_cases hunit : ret.isUnit = true
      · simpa [hunit] using Token.spells_nil
      · simpa [hunit] using hret.blank.arrow.blank
    have hfn : Token.isIdent "fn".toList = true := by decide
    rw [chars, tokens, charsList_eq_map, tokensList_eq_map]
    simpa using spells_applied hfn '(' ')' (forall₂_map hparams) (by decide) (by decide) harrow
  | named name regions args ih =>
    obtain ⟨hroot, hbelow⟩ := spellable_iff.mp h
    simp only [rootSpellable, Bool.and_eq_true] at hroot
    have hargs : ∀ t ∈ args, Spells t.chars t.tokens := fun t ht => ih t ht (hbelow t ht)
    have hparts : List.Forall₂ Spells (regions.map Region.argChars ++ args.map chars)
        ((regions.map fun r => [r.argToken]) ++ args.map tokens) :=
      List.rel_append (spells_region_args hroot.2) (forall₂_map hargs)
    rw [chars, tokens, charsList_eq_map, tokensList_eq_map]
    generalize regions.map Region.argChars ++ args.map chars = parts at hparts ⊢
    generalize (regions.map fun r => [r.argToken]) ++ args.map tokens = toks at hparts ⊢
    cases hparts with
    | nil => exact Token.spells_ident name hroot.1.1
    | cons hpart hparts =>
      simpa using spells_applied hroot.1.1 '<' '>' (.cons hpart hparts) (by decide) (by decide)
        Token.spells_nil

end Ty

end Generics
