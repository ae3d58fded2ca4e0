import Generics.Proofs.Ty.Readable
import Generics.Proofs.Ty.RoundTrip

/-!
# Printing and reading undo each other

A type is *canonical* if none of its names has another meaning in print. Reading a printed canonical
type gives back the type.

The types that can be read are not all canonical. `i32<>` is a name without arguments, which is printed
like the built-in type, and `&(mut)` is printed `&mut`. A type that was read is *legible* if it holds no
such name and no such reference, and just then it is read back from its print.

## Main results

* `Ty.Canonical.parse_render`: a printed canonical type is read back;
* `Ty.parse_render_iff_legible`: a type that was read is read back from its print if and only if it is
  legible, and legible types that were read are told apart by their print;
* `Ty.parse_render_lost`: not every type that can be read is read back from its print.
-/

namespace Generics

namespace Ty

open Token (delimits_nil)

/-- The root of the type is not lost in print: it is no name without arguments that is called like a
built-in type, and no shared reference to a type called `mut`. -/
def rootLegible : Ty → Bool
  | .ref _ false inner => !inner.isCalled "mut"
  | .named name [] [] => !Primitive.isName name
  | _ => true

/-- Nothing in the type is lost in print. -/
def Legible (t : Ty) : Prop := t.everywhere rootLegible = true

instance (t : Ty) : Decidable t.Legible := inferInstanceAs (Decidable (_ = true))

theorem rereadList_eq_self_iff {ts : List Ty} :
    rereadList ts = some ts ↔ ∀ t ∈ ts, t.reread = some t := by
  induction ts with
  | nil => simp [rereadList]
  | cons t ts ih =>
    rw [rereadList, List.forall_mem_cons, ← ih]
    cases t.reread <;> cases rereadList ts <;> simp

theorem legible_iff {t : Ty} :
    t.Legible ↔ t.rootLegible = true ∧ ∀ u ∈ t.children, u.Legible := everywhere_iff

/-- A type is read back from its print if and only if nothing in it is lost in print. -/
theorem Spellable.reread_eq_self_iff {t : Ty} (h : t.Spellable) : t.reread = some t ↔ t.Legible := by
  induction t with
  | prim name => exact iff_of_true rfl rfl
  | var id => exact iff_of_true rfl rfl
  | tuple elems ih =>
    have helems : (∀ t ∈ elems, t.reread = some t) ↔ ∀ t ∈ elems, t.Legible :=
      forall₂_congr fun t ht => ih t ht ((everywhere_iff.mp h).2 t ht)
    rw [legible_iff, reread]
    simpa [rootLegible, children, rereadList_eq_self_iff] using helems
  | array elem size ih =>
    have helem := ih ((everywhere_iff.mp h).2 elem (by simp [children]))
    rw [legible_iff, reread]
    simpa [rootLegible, children] using helem
  | ref region isMut inner ih =>
    have hinner := ih ((everywhere_iff.mp h).2 inner (by simp [children]))
    rw [legible_iff, reread]
    cases isMut <;> simp [rootLegible, children, hinner]
  | ptr isMut inner ih =>
    have hinner := ih ((everywhere_iff.mp h).2 inner (by simp [children]))
    rw [legible_iff, reread]
    simpa [rootLegible, children] using hinner
  | fn params ret ih ihret =>
    obtain ⟨hsome, hbelow⟩ := everywhere_iff.mp h
    obtain ⟨ret, rfl⟩ := Option.isSome_iff_exists.mp hsome
    have hparams : (∀ t ∈ params, t.reread = some t) ↔ ∀ t ∈ params, t.Legible :=
      forall₂_congr fun t ht => ih t ht (hbelow t (by simp [children, ht]))
    have hret := ihret ret rfl (hbelow ret (by simp [children]))
    rw [legible_iff, reread]
    simp only [rootLegible, children, Option.toList_some, List.mem_append, List.mem_singleton, or_imp,
      forall_and, forall_eq, true_and, ← hparams, ← hret, ← rereadList_eq_self_iff]
    cases rereadList params <;> cases ret.reread <;> simp
  | named name regions args ih =>
    have hargs : (∀ t ∈ args, t.reread = some t) ↔ ∀ t ∈ args, t.Legible :=
      forall₂_congr fun t ht => ih t ht ((everywhere_iff.mp h).2 t ht)
    rw [legible_iff]
    -- a bare name is lost in print if it is that of a primitive type
    by_cases hbare : regions = [] ∧ args = []
    · obtain ⟨rfl, rfl⟩ := hbare
      by_cases hname : Primitive.isName name = true <;>
        simp [reread, ofName, rootLegible, children, hname]
    · have hsome : regions ≠ [] ∨ args ≠ [] := not_and_or.mp hbare
      have hroot : (Ty.named name regions args).rootLegible = true := by
        unfold rootLegible
        split <;> simp_all
      rw [reread_applied hsome]
      simpa [hroot, children, rereadList_eq_self_iff] using hargs

/-- What a printed type is read as. -/
theorem Spellable.parse_render_eq_ok_iff {t u : Ty} (h : t.Spellable) :
    parse t.render = .ok u ↔ t.reread = some u := by
  have hread := h.readsBack [] delimits_nil
  rw [List.append_nil] at hread
  rw [parse_eq_ok_iff, toList_render, h.spells.scan]
  simp [hread]

/-- A legible type is read back from its print. -/
theorem Spellable.parse_render_of_legible {t : Ty} (h : t.Spellable) (hlegible : t.Legible) :
    parse t.render = .ok t :=
  h.parse_render_eq_ok_iff.mpr (h.reread_eq_self_iff.mpr hlegible)

/-! ## Canonical types -/

/-- The root of the type is canonical: a built-in type has one of the built-in names, a region is left
out or a region token other than `'_`, a function has a return type, and any other name is an
identifier other than `fn` and `mut` that, without arguments, is not called like a built-in type. -/
def rootCanonical : Ty → Bool
  | .prim name => Primitive.isName name
  | .ref region _ _ => region.isSpellable
  | .fn _ ret => ret.isSome
  | .named name regions args =>
    Token.isIdent name.toList && name ≠ "fn" && name ≠ "mut" && regions.all Region.isSpellable &&
      (!regions.isEmpty || !args.isEmpty || !Primitive.isName name)
  | .var _ | .tuple _ | .array _ _ | .ptr _ _ => true

/-- The type is canonical throughout. -/
def Canonical (t : Ty) : Prop := t.everywhere rootCanonical = true

instance (t : Ty) : Decidable t.Canonical := inferInstanceAs (Decidable (_ = true))

theorem Canonical.spellable {t : Ty} (h : t.Canonical) : t.Spellable := by
  refine everywhere_mono h fun u hu => ?_
  have hroot := (everywhere_iff.mp hu).1
  cases u <;> simp_all [rootCanonical, rootSpellable]

theorem Canonical.isCalled_mut {t : Ty} (h : t.Canonical) : t.isCalled "mut" = false := by
  have hroot := (everywhere_iff.mp h).1
  cases t with
  | named name regions args =>
    simp only [rootCanonical, Bool.and_eq_true] at hroot
    simpa [isCalled] using hroot.1.1.2
  | _ => rfl

theorem Canonical.legible {t : Ty} (h : t.Canonical) : t.Legible := by
  refine everywhere_mono h fun u hu => ?_
  obtain ⟨hroot, hbelow⟩ := everywhere_iff.mp hu
  unfold rootLegible
  split
  · rename_i region inner
    have hinner : inner.Canonical := hbelow inner (by simp [children])
    simp [hinner.isCalled_mut]
  · simp only [rootCanonical, Bool.and_eq_true] at hroot
    simpa using hroot.2
  · rfl

/-- Reading a printed canonical type gives back the type. -/
theorem Canonical.parse_render {t : Ty} (h : t.Canonical) : parse t.render = .ok t :=
  h.spellable.parse_render_eq_ok_iff.mpr (h.spellable.reread_eq_self_iff.mpr h.legible)

/-- The print of a canonical type with regions, paths, a tuple of one element and nested lists. -/
theorem Canonical.parse_render_of_nested :
    let t : Ty := .fn [.ref ⟨"'a"⟩ true (.named "std::Vec" [.elided] [.tuple [.prim "i32"], .var 7]),
      .array (.ptr false (.prim "u8")) 4] (some never)
    t.Canonical ∧ t.render = "fn(&'a mut std::Vec<'_, (i32,), ?7>, [*const u8; 4]) -> !" ∧
      parse t.render = .ok t := by
  intro t
  have ht : t.Canonical := by decide +kernel
  exact ⟨ht, by decide +kernel, ht.parse_render⟩

/-! ## Types that were read -/

/-- A type that was read is read back from its print if and only if it is legible. Two legible types
that were read and have the same print are the same. -/
theorem parse_render_iff_legible {text : String} {t : Ty} (h : parse text = .ok t) :
    (parse t.render = .ok t ↔ t.Legible) ∧
      ∀ text' t', parse text' = .ok t' → t.Legible → t'.Legible → t.render = t'.render → t = t' := by
  have hback {text : String} {t : Ty} (h : parse text = .ok t) :
      parse t.render = .ok t ↔ t.Legible :=
    (spellable_of_parse h).parse_render_eq_ok_iff.trans (spellable_of_parse h).reread_eq_self_iff
  refine ⟨hback h, fun text' t' h' ht ht' hrender => ?_⟩
  have heq : Except.ok t = Except.ok t' :=
    ((hback h).mpr ht).symm.trans (hrender ▸ (hback h').mpr ht')
  exact Except.ok.inj heq

/-- An empty list of arguments is as good as none, except that a built-in name stays a name. -/
theorem parse_empty_args (name : String) (hname : Token.isIdent name.toList = true)
    (hfn : name ≠ "fn") : parse (name ++ "<>") = .ok (.named name [] []) := by
  have hspells := (Token.spells_ident name hname).then_sym (c := '<') (by decide)
    (Token.spells_nil.sym (c := '>') (by decide))
  refine parse_eq_ok_iff.mpr ⟨_, by rw [String.toList_append]; exact hspells.scan, ?_⟩
  rw [List.singleton_append, read?_applied hfn, readArgs?_close]
  rfl

/-- `i32<>` is read as a type that is not legible, and `i32` is read as another one. -/
theorem parse_render_iff_legible_of_empty_args :
    parse "i32<>" = .ok (.named "i32" [] []) ∧
      (parse "i32" = .ok (.named "i32" [] []) ↔ (Ty.named "i32" [] []).Legible) ∧
      ¬(Ty.named "i32" [] []).Legible := by
  have h : parse "i32<>" = .ok (.named "i32" [] []) :=
    parse_empty_args "i32" (isIdent_of_isName (by decide) (by decide)) (by decide)
  exact ⟨h, (parse_render_iff_legible h).1, by decide⟩

/-- `i32<>` and `i32` are read as different types with the same print, and `&(mut)` is read as a type
whose print cannot be read. -/
theorem parse_render_lost :
    (parse "i32<>" = .ok (.named "i32" [] []) ∧ (Ty.named "i32" [] []).render = "i32" ∧
        parse "i32" = .ok (.prim "i32")) ∧
      (parse "&(mut)" = .ok (.ref .elided false (.named "mut" [] [])) ∧
        (Ty.ref .elided false (.named "mut" [] [])).render = "&mut" ∧
        ∀ t, parse "&mut" ≠ .ok t) := by
  have hi32 : (Ty.named "i32" [] []).Spellable := by decide +kernel
  have hmut : (Ty.ref .elided false (.named "mut" [] [])).Spellable := by decide
  refine ⟨⟨?_, by decide, ?_⟩, ?_, by decide, ?_⟩
  · exact parse_empty_args "i32" (isIdent_of_isName (by decide) (by decide)) (by decide)
  · exact hi32.parse_render_eq_ok_iff.mpr rfl
  · -- in parentheses the word is a name
    have hspells := (((Token.spells_ident "mut" (by decide)).then_sym (c := ')') (by decide)
      Token.spells_nil).sym (c := '(') (by decide)).sym (c := '&') (by decide)
    refine parse_eq_ok_iff.mpr ⟨_, hspells.scan, ?_⟩
    have hlist : readList? ')' [.ident "mut", .sym ')'] = some (([.named "mut" [] []], false), []) := by
      rw [readList?_eq (by decide), read?_name (by decide) (by decide)]
      rfl
    have hparen : read? [.sym '(', .ident "mut", .sym ')'] = some (.named "mut" [] [], []) := by
      rw [read?_paren, hlist]
      rfl
    show read? (.sym '&' :: [.sym '(', .ident "mut", .sym ')']) = _
    rw [read?_ref]
    show (read? [.sym '(', .ident "mut", .sym ')']).map _ = _
    rw [hparen]
    rfl
  · intro t ht
    cases hmut.parse_render_eq_ok_iff.mp ht

end Ty

end Generics
