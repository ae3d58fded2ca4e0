import Generics.Proofs.Ty.Extent

/-!
# Tokens of types written otherwise in parentheses

A type in parentheses may be written in many ways: with more parentheses, commas at the end of its lists.
Whatever stands around the parentheses, the reader makes the same of all of them. Wherever one of them can
be read the others can, and the tokens that are left are again the same but for what stands in
parentheses.

## Main results

* `Ty.Regrouped`: tokens that differ only in how types in parentheses are written;
* `Ty.Regrouped.read?`: the same type is read from them.
-/

namespace Generics

namespace Ty

open Token (delimits_cons)

/-- The tokens are the same, except for the writing of some types that stand in parentheses. -/
inductive Regrouped : List Token → List Token → Prop
  | nil : Regrouped [] []
  | cons (tok : Token) {ts us : List Token} (h : Regrouped ts us) : Regrouped (tok :: ts) (tok :: us)
  | group {inside inside' : List Token} {t : Ty} (hread : read? inside = some (t, []))
      (hread' : read? inside' = some (t, [])) {ts us : List Token} (h : Regrouped ts us) :
      Regrouped (.sym '(' :: (inside ++ .sym ')' :: ts)) (.sym '(' :: (inside' ++ .sym ')' :: us))

/-- A type that stands alone in parentheses. -/
theorem readList?_single {inside : List Token} {t : Ty} (h : read? inside = some (t, []))
    (after : List Token) :
    readList? ')' (inside ++ .sym ')' :: after) = some (([t], false), after) := by
  have hend : Token.Delimits (.sym ')' :: after) := delimits_cons rfl after
  have hread := read?_append h hend
  exact (Reads.lastElem (read?_eq_some_iff.mp hread)).isRead

namespace Regrouped

theorem refl (ts : List Token) : Regrouped ts ts := by
  induction ts with
  | nil => exact .nil
  | cons tok ts ih => exact .cons tok ih

/-- Tokens in front stay as they are. -/
theorem append_left (front : List Token) {ts us : List Token} (h : Regrouped ts us) :
    Regrouped (front ++ ts) (front ++ us) := by
  induction front with
  | nil => exact h
  | cons tok front ih => exact .cons tok ih

theorem head?_eq {ts us : List Token} (h : Regrouped ts us) : us.head? = ts.head? := by
  cases h <;> rfl

/-- Only a parenthesis starts a writing that may differ. -/
theorem exists_cons {tok : Token} {ts us : List Token} (h : Regrouped (tok :: ts) us)
    (htok : tok ≠ .sym '(') : ∃ us', us = tok :: us' ∧ Regrouped ts us' := by
  cases h with
  | cons _ h => exact ⟨_, rfl, h⟩
  | group => exact absurd rfl htok

theorem startsWith_eq (word : String) {ts us : List Token} (h : Regrouped ts us) :
    startsWith word us = startsWith word ts :=
  startsWith_congr word h.head?_eq

theorem regionAt_eq {ts us : List Token} (h : Regrouped ts us) : regionAt us = regionAt ts := by
  cases h with
  | cons tok h => cases tok <;> rfl
  | _ => rfl

theorem afterRegion {ts us : List Token} (h : Regrouped ts us) :
    Regrouped (afterRegion ts) (afterRegion us) := by
  cases h with
  | nil => exact .nil
  | cons tok h =>
    cases tok with
    | region name => exact h
    | _ => exact .cons _ h
  | group hread hread' h => exact .group hread hread' h

theorem afterWord (word : String) {ts us : List Token} (h : Regrouped ts us) :
    Regrouped (afterWord word ts) (afterWord word us) := by
  by_cases hword : startsWith word ts = true
  · obtain ⟨ts', rfl⟩ := exists_of_startsWith hword
    obtain ⟨us', rfl, h'⟩ := h.exists_cons nofun
    rw [Ty.afterWord, Ty.afterWord, if_pos hword, if_pos (h.startsWith_eq word ▸ hword)]
    exact h'
  · rw [Ty.afterWord, Ty.afterWord, if_neg hword, if_neg (h.startsWith_eq word ▸ hword)]
    exact h

end Regrouped

/-! ## The reader -/

/-- The parentheses of a list may be those around a type that is written otherwise, as in `fn(i32)` and
`fn((i32))`. -/
theorem Regrouped.exists_paren {ts us rest : List Token} {elems : List Ty} {comma : Bool}
    (hus : Regrouped (.sym '(' :: ts) us) (h : Reads ts (.list elems comma) rest)
    (ih : ∀ {us}, Regrouped ts us → ∃ rest', Reads us (.list elems comma) rest' ∧ Regrouped rest rest') :
    ∃ us' rest', us = .sym '(' :: us' ∧ Reads us' (.list elems comma) rest' ∧ Regrouped rest rest' := by
  cases hus with
  | cons _ hus =>
    obtain ⟨rest', h', hrest⟩ := ih hus
    exact ⟨_, rest', rfl, h', hrest⟩
  | group hread hread' hrest =>
    -- a list of one type without a comma is such a group itself
    have hlist := h.isRead
    rw [Item.IsRead, readList?_single hread] at hlist
    cases hlist
    exact ⟨_, _, rfl, reads_iff.mpr (readList?_single hread' _), hrest⟩

/-- However types in parentheses are written, the same is read. -/
theorem Regrouped.reads {ts us rest : List Token} (hus : Regrouped ts us) {x : Item}
    (h : Reads ts x rest) : ∃ rest', Reads us x rest' ∧ Regrouped rest rest' := by
  -- a token that is no parenthesis is found again; parentheses are left to `exists_paren`
  induction h generalizing us with
  | var hid =>
    obtain ⟨us', rfl, hus'⟩ := hus.exists_cons nofun
    exact ⟨us', .var hid, hus'⟩
  | fn hparams _ ihparams ihret =>
    obtain ⟨us', rfl, hus'⟩ := hus.exists_cons nofun
    obtain ⟨opened, after, rfl, hparams', hafter⟩ := hus'.exists_paren hparams ihparams
    obtain ⟨rest', hret', hrest⟩ := ihret hafter
    exact ⟨rest', .fn hparams' hret', hrest⟩
  | name hfn hts =>
    obtain ⟨us', rfl, hus'⟩ := hus.exists_cons nofun
    exact ⟨us', .name hfn (hus'.head?_eq ▸ hts), hus'⟩
  | applied hfn _ ihargs =>
    obtain ⟨us', rfl, hus'⟩ := hus.exists_cons nofun
    obtain ⟨opened, rfl, hopened⟩ := hus'.exists_cons (by decide)
    obtain ⟨rest', hargs', hrest⟩ := ihargs hopened
    exact ⟨rest', .applied hfn hargs', hrest⟩
  | paren helems ihelems =>
    obtain ⟨us', rest', rfl, helems', hrest⟩ := hus.exists_paren helems ihelems
    exact ⟨rest', .paren helems', hrest⟩
  | array _ hsize ihelem =>
    obtain ⟨us', rfl, hus'⟩ := hus.exists_cons (by decide)
    obtain ⟨after, helem', hafter⟩ := ihelem hus'
    obtain ⟨sizes, rfl, hsizes⟩ := hafter.exists_cons (by decide)
    obtain ⟨after', rfl, hafter'⟩ := hsizes.exists_cons nofun
    obtain ⟨rest', rfl, hrest⟩ := hafter'.exists_cons (by decide)
    exact ⟨rest', .array helem' hsize, hrest⟩
  | ref _ ihinner =>
    obtain ⟨us', rfl, hus'⟩ := hus.exists_cons (by decide)
    obtain ⟨rest', hinner', hrest⟩ := ihinner (hus'.afterRegion.afterWord "mut")
    rw [← hus'.regionAt_eq, ← hus'.afterRegion.startsWith_eq]
    exact ⟨rest', .ref hinner', hrest⟩
  | ptr hword _ ihinner =>
    obtain ⟨us', rfl, hus'⟩ := hus.exists_cons (by decide)
    obtain ⟨us'', rfl, hus''⟩ := hus'.exists_cons nofun
    obtain ⟨rest', hinner', hrest⟩ := ihinner hus''
    exact ⟨rest', .ptr hword hinner', hrest⟩
  | never =>
    obtain ⟨us', rfl, hus'⟩ := hus.exists_cons (by decide)
    exact ⟨us', .never, hus'⟩
  | arrow _ ihret =>
    obtain ⟨us', rfl, hus'⟩ := hus.exists_cons nofun
    obtain ⟨rest', hret', hrest⟩ := ihret hus'
    exact ⟨rest', .arrow hret', hrest⟩
  | noArrow hts => exact ⟨us, .noArrow (hus.head?_eq ▸ hts), hus⟩
  | noElems =>
    obtain ⟨us', rfl, hus'⟩ := hus.exists_cons nofun
    exact ⟨us', .noElems, hus'⟩
  | lastElem _ ihelem =>
    obtain ⟨after, helem', hafter⟩ := ihelem hus
    obtain ⟨rest', rfl, hrest⟩ := hafter.exists_cons nofun
    exact ⟨rest', .lastElem helem', hrest⟩
  | elem _ _ ihelem ihelems =>
    obtain ⟨after, helem', hafter⟩ := ihelem hus
    obtain ⟨us', rfl, hus'⟩ := hafter.exists_cons nofun
    obtain ⟨rest', helems', hrest⟩ := ihelems hus'
    exact ⟨rest', .elem helem' helems', hrest⟩
  | noArgs =>
    obtain ⟨us', rfl, hus'⟩ := hus.exists_cons nofun
    exact ⟨us', .noArgs, hus'⟩
  | lastRegion =>
    obtain ⟨us', rfl, hus'⟩ := hus.exists_cons nofun
    obtain ⟨rest', rfl, hrest⟩ := hus'.exists_cons nofun
    exact ⟨rest', .lastRegion, hrest⟩
  | region _ ihargs =>
    obtain ⟨us', rfl, hus'⟩ := hus.exists_cons nofun
    obtain ⟨us'', rfl, hus''⟩ := hus'.exists_cons nofun
    obtain ⟨rest', hargs', hrest⟩ := ihargs hus''
    exact ⟨rest', .region hargs', hrest⟩
  | lastArg _ iharg =>
    obtain ⟨after, harg', hafter⟩ := iharg hus
    obtain ⟨rest', rfl, hrest⟩ := hafter.exists_cons nofun
    exact ⟨rest', .lastArg harg', hrest⟩
  | arg _ _ iharg ihargs =>
    obtain ⟨after, harg', hafter⟩ := iharg hus
    obtain ⟨us', rfl, hus'⟩ := hafter.exists_cons nofun
    obtain ⟨rest', hargs', hrest⟩ := ihargs hus'
    exact ⟨rest', .arg harg' hargs', hrest⟩

/-- However types in parentheses are written, the same type is read. -/
theorem Regrouped.read? {ts us rest : List Token} (hus : Regrouped ts us) {t : Ty}
    (h : read? ts = some (t, rest)) : ∃ rest', read? us = some (t, rest') ∧ Regrouped rest rest' := by
  simp only [read?_eq_some_iff] at h ⊢
  exact hus.reads h

end Ty

end Generics
