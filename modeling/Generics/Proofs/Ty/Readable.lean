import Generics.Proofs.Ty.Reads
import Generics.Proofs.Ty.Spelling

/-!
# What is read can be written

The scanner makes names and regions only of texts that are names and regions, and the reader takes no
`fn` for a name and no `'_` for a region. So every name in a type that was read can be written.

## Main results

* `Token.isProper_of_mem_scan`: the names and regions among the tokens of a text are such;
* `Ty.spellable_of_parse`: every name in a type that a text stands for can be written.
-/

namespace Generics

namespace Token

open Text

/-- The text of a name or of a region is one. -/
def isProper : Token → Bool
  | .ident name => isIdent name.toList
  | .region name => isRegion name.toList
  | _ => true

theorem isNameTail_spanName (cs : List Char) : isNameTail (spanName cs).1 = true := by
  fun_induction spanName cs with
  | case1 => rfl
  | case2 cs ih => exact ih
  | case3 c cs hpath hname ih =>
    show isNameTail (c :: (spanName cs).1) = true
    rw [isNameTail]
    · simp [hname, ih]
    · rintro _ rfl
      rw [(kinds_of_mark (by simp)).2.2.2] at hname
      exact absurd hname Bool.false_ne_true
  | case4 c cs hpath hname => rfl

/-- A token before those that are left. -/
theorem exists_of_cons_eq_ok {tok : Token} {x : Except Malformation (List Token)} {toks : List Token}
    (h : (do let rest ← x; return tok :: rest) = .ok toks) :
    ∃ rest, x = .ok rest ∧ toks = tok :: rest := by
  cases x with
  | error m => cases h
  | ok rest => exact ⟨rest, rfl, (Except.ok.inj h).symm⟩

/-- The scanner makes names and regions of texts that are names and regions. -/
theorem isProper_of_mem_scan {cs : List Char} {toks : List Token} (h : scan cs = .ok toks) :
    ∀ tok ∈ toks, tok.isProper = true := by
  -- a proper token in front of those that the rest is split into
  have hcons {tok : Token} {x : Except Malformation (List Token)} {toks : List Token}
      (h : (do let rest ← x; return tok :: rest) = .ok toks) (htok : tok.isProper = true)
      (ih : ∀ {toks}, x = .ok toks → ∀ tok ∈ toks, tok.isProper = true) :
      ∀ tok ∈ toks, tok.isProper = true := by
    obtain ⟨rest, hrest, rfl⟩ := exists_of_cons_eq_ok h
    exact List.forall_mem_cons.mpr ⟨htok, ih hrest⟩
  fun_induction scan cs generalizing toks with
  | case1 =>
    obtain rfl := Except.ok.inj h
    exact nofun
  | case2 c cs hblank ih => exact ih h
  | case3 c cs hblank hname ih =>
    refine hcons h ?_ ih
    simp [isProper, isIdent, hname, isNameTail_spanName]
  | case4 c cs hempty => cases h
  | case5 cs hempty hblank hname ih =>
    have hall : (cs.takeWhile isNameChar).all isNameChar = true := List.all_takeWhile
    refine hcons h ?_ ih
    cases hcs : cs.takeWhile isNameChar with
    | nil => simp [hcs] at hempty
    | cons c tail =>
      rw [hcs] at hall
      simpa [isProper, isRegion] using hall
  | case6 c cs hblank hname hquote hdigit ih => exact hcons h rfl ih
  | case7 => cases h
  | case8 cs hempty _ _ _ _ ih => exact hcons h rfl ih
  | case9 _ _ _ _ _ _ _ _ ih => exact hcons h rfl ih
  | case10 _ _ _ _ _ _ _ _ _ ih => exact hcons h rfl ih
  | case11 => cases h

end Token

namespace Ty

open Text

/-- All tokens are proper. -/
def Proper (toks : List Token) : Prop := ∀ tok ∈ toks, tok.isProper = true

/-- The first token is proper. -/
theorem Proper.head {tok : Token} {ts : List Token} (hts : Proper (tok :: ts)) : tok.isProper = true :=
  hts tok List.mem_cons_self

/-- The tokens after the first are proper. -/
theorem Proper.tail {ts : List Token} (hts : Proper ts) : Proper ts.tail :=
  fun tok htok => hts tok (List.mem_of_mem_tail htok)

theorem Proper.afterWord {ts : List Token} (hts : Proper ts) (word : String) :
    Proper (afterWord word ts) := by
  unfold Ty.afterWord
  split
  · exact hts.tail
  · exact hts

theorem isSpellable_regionOf {name : String} (h : Token.isRegion name.toList = true) :
    (regionOf name).isSpellable = true := by
  unfold regionOf
  by_cases hanonymous : name = "'_"
  · rw [if_pos hanonymous]
    rfl
  · rw [if_neg hanonymous]
    simp [Region.isSpellable, h, hanonymous]

theorem Proper.region {ts : List Token} (hts : Proper ts) :
    (regionAt ts).isSpellable = true ∧ Proper (afterRegion ts) := by
  unfold regionAt afterRegion
  split
  · obtain ⟨hname, htail⟩ := List.forall_mem_cons.mp hts
    exact ⟨isSpellable_regionOf hname, htail⟩
  · exact ⟨rfl, hts⟩

theorem spellable_ofName {name : String} (h : Token.isIdent name.toList = true) (hfn : name ≠ "fn") :
    (ofName name).Spellable := by
  unfold ofName
  by_cases hname : Primitive.isName name = true
  · rw [if_pos hname]
    exact hname
  · rw [if_neg hname]
    exact spellable_iff.mpr ⟨by simp [rootSpellable, h, hfn], nofun⟩

theorem spellable_grouped {elems : List Ty} (h : ∀ t ∈ elems, t.Spellable) (trailing : Bool) :
    (grouped (elems, trailing)).Spellable := by
  unfold grouped
  split
  · rename_i elem heq
    obtain ⟨rfl, -⟩ := Prod.mk.inj heq
    exact h elem (by simp)
  · rename_i heq
    obtain ⟨rfl, -⟩ := Prod.mk.inj heq
    exact spellable_iff.mpr ⟨rfl, h⟩

/-- Every name in what is read can be written. -/
def Item.Spellable : Item → Prop
  | .type t | .ret t => t.Spellable
  | .list elems _ => ∀ t ∈ elems, t.Spellable
  | .args regions types => (∀ r ∈ regions, r.isSpellable = true) ∧ ∀ t ∈ types, t.Spellable

/-- What is read from proper tokens can be written, and the tokens that are left are proper. -/
theorem Reads.spellable {ts rest : List Token} {x : Item} (h : Reads ts x rest) (hts : Proper ts) :
    x.Spellable ∧ Proper rest := by
  induction h with
  | var => exact ⟨rfl, hts.tail⟩
  | fn _ _ ihparams ihret =>
    obtain ⟨hparams, hafter⟩ := ihparams hts.tail.tail
    obtain ⟨hret, hrest⟩ := ihret hafter
    refine ⟨spellable_iff.mpr ⟨rfl, fun t ht => ?_⟩, hrest⟩
    rcases List.mem_append.mp ht with ht | ht
    · exact hparams t ht
    · rw [Option.toList_some, List.mem_singleton] at ht
      exact ht ▸ hret
  | name hfn _ => exact ⟨spellable_ofName hts.head hfn, hts.tail⟩
  | applied hfn _ ihargs =>
    have hname := hts.head
    obtain ⟨⟨hregions, htypes⟩, hrest⟩ := ihargs hts.tail.tail
    refine ⟨spellable_iff.mpr ⟨?_, htypes⟩, hrest⟩
    simpa [rootSpellable, hfn] using ⟨hname, hregions⟩
  | paren _ ihelems =>
    obtain ⟨helems, hrest⟩ := ihelems hts.tail
    exact ⟨spellable_grouped helems _, hrest⟩
  | array _ _ ihelem =>
    -- after the element come a semicolon, the size and a bracket
    obtain ⟨helem, hafter⟩ := ihelem hts.tail
    exact ⟨spellable_iff.mpr ⟨rfl, List.forall_mem_singleton.mpr helem⟩, hafter.tail.tail.tail⟩
  | ref _ ihinner =>
    obtain ⟨hregion, hafter⟩ := hts.tail.region
    obtain ⟨hinner, hrest⟩ := ihinner (hafter.afterWord "mut")
    exact ⟨spellable_iff.mpr ⟨hregion, List.forall_mem_singleton.mpr hinner⟩, hrest⟩
  | ptr _ _ ihinner =>
    obtain ⟨hinner, hrest⟩ := ihinner hts.tail.tail
    exact ⟨spellable_iff.mpr ⟨rfl, List.forall_mem_singleton.mpr hinner⟩, hrest⟩
  | never => exact ⟨rfl, hts.tail⟩
  | arrow _ ihret => exact ihret hts.tail
  | noArrow _ => exact ⟨rfl, hts⟩
  | noElems => exact ⟨List.forall_mem_nil _, hts.tail⟩
  | lastElem _ ihelem =>
    obtain ⟨helem, hafter⟩ := ihelem hts
    exact ⟨List.forall_mem_singleton.mpr helem, hafter.tail⟩
  | elem _ _ ihelem ihelems =>
    obtain ⟨helem, hafter⟩ := ihelem hts
    obtain ⟨helems, hrest⟩ := ihelems hafter.tail
    exact ⟨List.forall_mem_cons.mpr ⟨helem, helems⟩, hrest⟩
  | noArgs => exact ⟨⟨List.forall_mem_nil _, List.forall_mem_nil _⟩, hts.tail⟩
  | lastRegion =>
    have hregion := isSpellable_regionOf hts.head
    exact ⟨⟨List.forall_mem_singleton.mpr hregion, List.forall_mem_nil _⟩, hts.tail.tail⟩
  | region _ ihargs =>
    have hregion := isSpellable_regionOf hts.head
    obtain ⟨⟨hregions, htypes⟩, hrest⟩ := ihargs hts.tail.tail
    exact ⟨⟨List.forall_mem_cons.mpr ⟨hregion, hregions⟩, htypes⟩, hrest⟩
  | lastArg _ iharg =>
    obtain ⟨harg, hafter⟩ := iharg hts
    exact ⟨⟨List.forall_mem_nil _, List.forall_mem_singleton.mpr harg⟩, hafter.tail⟩
  | arg _ _ iharg ihargs =>
    obtain ⟨harg, hafter⟩ := iharg hts
    obtain ⟨⟨hregions, htypes⟩, hrest⟩ := ihargs hafter.tail
    exact ⟨⟨hregions, List.forall_mem_cons.mpr ⟨harg, htypes⟩⟩, hrest⟩

/-- What is read from the tokens of a text can be written. -/
theorem spellable_of_parse {text : String} {t : Ty} (h : parse text = .ok t) : t.Spellable := by
  obtain ⟨toks, hscan, hread⟩ := parse_eq_ok_iff.mp h
  exact ((read?_eq_some_iff.mp hread).spellable (Token.isProper_of_mem_scan hscan)).1

end Ty

end Generics
