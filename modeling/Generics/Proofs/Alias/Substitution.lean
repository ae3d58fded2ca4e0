import Generics.Proofs.Alias.Orderly
import Generics.Proofs.Ty.Template

/-!
# Putting arguments into a target

Arguments are put into a target word by word, and what comes out is read again. If target and arguments
are printed canonical types, the type that is read is the target with its parameters replaced, all at
once.

A parameter must not be a word that the print of a type has in other places: `fn`, `mut`, `const`, the
name of a built-in type or a name with arguments. Regions are passed over, numbers are no identifiers, and
a path is one word. An argument that is no name is put in parentheses, which the reader takes off again
wherever a type may stand.

## Main results

* `Alias.Becomes`: what becomes of a text when arguments are put in;
* `Alias.fills_phraseWith`: the print of a type becomes a text with the tokens of the phrase in which the
  parameters are replaced;
* `Alias.parse_substitute`: putting in printed arguments is substitution in the type.
-/

namespace Generics.Alias

open Text
open Token (Stops Spells symbols isNameChar)

/-- The text with arguments in place of parameters. -/
def filled (params args : List String) (cs : List Char) : List Char :=
  (segments cs).flatMap (Segment.fill params args)

section Becomes

variable (params args : List String)

/-- What is neither a word nor a region stays. -/
theorem filled_other {c : Char} (hquote : c ≠ '\'') (hname : isNameChar c = false) (cs : List Char) :
    filled params args (c :: cs) = c :: filled params args cs := by
  have hident : ¬isIdentChar c = true := Bool.eq_false_iff.mp hname
  rw [filled, segments, if_neg hquote, if_neg hident]
  rfl

/-- A word is put in as a whole, and the text after it on its own. -/
theorem filled_word {c : Char} {w rest : List Char} (hc : isNameChar c = true)
    (hw : w.all isWordChar = true) (hrest : Stops rest) :
    filled params args (c :: w ++ rest) =
      (Segment.word (c :: w)).fill params args ++ filled params args rest := by
  -- a quote would start a region
  have hquote : c ≠ '\'' := by
    rintro rfl
    rw [(Token.kinds_of_mark (by simp)).2.2.2] at hc
    cases hc
  have hend : ∀ d ∈ rest.head?, isWordChar d = false := fun d hd =>
    Bool.or_eq_false_iff.mpr ⟨(hrest d hd).1, decide_eq_false (hrest d hd).2⟩
  obtain ⟨htake, hdrop⟩ := takeWhile_append_of_all hw hend
  have hident : isIdentChar c = true := hc
  rw [filled, List.cons_append, segments, if_neg hquote, if_pos hident, htake, hdrop]
  rfl

/-- A region is left as it is. -/
theorem filled_region {cs rest : List Char} (hcs : Token.isRegion cs = true) (hrest : Stops rest) :
    filled params args (cs ++ rest) = cs ++ filled params args rest := by
  obtain ⟨tail, rfl, htail⟩ : ∃ tail, cs = '\'' :: tail ∧ tail.all isIdentChar = true := by
    unfold Token.isRegion at hcs
    split at hcs
    · exact ⟨_, rfl, hcs⟩
    · cases hcs
  obtain ⟨htake, hdrop⟩ := takeWhile_append_of_all htail fun c hc => (hrest c hc).1
  rw [filled, List.cons_append, segments, if_pos rfl, htake, hdrop]
  rfl

/-- The text becomes another one when arguments are put in, whatever ends it. -/
def Becomes (cs ds : List Char) : Prop :=
  ∀ rest, Stops rest → filled params args (cs ++ rest) = ds ++ filled params args rest

variable {params args}

/-- Texts one after the other become what each of them becomes, if the second does not go on with
the last word of the first. -/
theorem Becomes.append {cs ds cs' ds' : List Char} (h : Becomes params args cs ds)
    (h' : Becomes params args cs' ds') (hstops : ∀ rest, Stops rest → Stops (cs' ++ rest)) :
    Becomes params args (cs ++ cs') (ds ++ ds') := by
  intro rest hrest
  rw [List.append_assoc, h _ (hstops rest hrest), h' rest hrest, List.append_assoc]

theorem becomes_nil : Becomes params args [] [] := fun _ _ => rfl

/-- What becomes of the whole text. -/
theorem Becomes.filled_eq {cs ds : List Char} (h : Becomes params args cs ds) :
    filled params args cs = ds := by
  have hwhole := h [] (by simp [Stops])
  have hnil : filled params args [] = [] := by simp [filled, segments]
  rwa [List.append_nil, hnil, List.append_nil] at hwhole

/-- Blanks and punctuation. -/
theorem Becomes.mark {c : Char} (hc : c ∈ ' ' :: '-' :: '?' :: symbols) {cs ds : List Char}
    (h : Becomes params args cs ds) : Becomes params args (c :: cs) (c :: ds) := by
  have hname : isNameChar c = false := (Token.kinds_of_mark (by simp at hc ⊢; tauto)).2.2.2
  have hquote : c ≠ '\'' := by
    rintro rfl
    exact absurd hc (by decide)
  intro rest hrest
  rw [List.cons_append, filled_other params args hquote hname, h rest hrest]
  rfl

/-- A name becomes what is put in for it. -/
theorem becomes_ident {cs : List Char} (h : Token.isIdent cs = true) :
    Becomes params args cs ((Segment.word cs).fill params args) := by
  cases cs with
  | nil => cases h
  | cons c w =>
    rw [Token.isIdent, Bool.and_eq_true] at h
    intro rest hrest
    exact filled_word params args (Token.isNameChar_of_isNameStart h.1) (all_isWordChar_of_isNameTail h.2)
      hrest

/-- A number is a word like a name. -/
theorem becomes_decimal (n : Nat) :
    Becomes params args (decimal n) ((Segment.word (decimal n)).fill params args) := by
  have hdigits : ∀ c ∈ decimal n, isNameChar c = true := fun c hc =>
    Token.isNameChar_of_isDigit (Token.kinds_of_isDigit (isDigit_of_mem_decimal hc)).1
  intro rest hrest
  cases hn : decimal n with
  | nil => exact absurd hn (decimal_ne_nil n)
  | cons c w =>
    rw [hn] at hdigits
    obtain ⟨hc, hw⟩ := List.forall_mem_cons.mp hdigits
    refine filled_word params args hc (List.all_eq_true.mpr fun d hd => ?_) hrest
    rw [isWordChar, Bool.or_eq_true]
    exact .inl (hw d hd)

/-! ## Texts that become tokens -/

/-- When arguments are put in, the text becomes one that spells the tokens. -/
def Fills (params args : List String) (cs : List Char) (toks : List Token) : Prop :=
  ∃ ds, Becomes params args cs ds ∧ Spells ds toks

theorem fills_nil : Fills params args [] [] := ⟨[], becomes_nil, Token.spells_nil⟩

/-- A word that is no parameter stays. -/
theorem fills_word {name : String} (h : Token.isIdent name.toList = true)
    (hkeep : argument? params args name.toList = none) : Fills params args name.toList [.ident name] := by
  refine ⟨name.toList, ?_, Token.spells_ident name h⟩
  have hword : Becomes params args name.toList _ := becomes_ident h
  rwa [Segment.fill_word, hkeep] at hword

/-- A parameter is replaced. -/
theorem fills_param {name arg : String} (h : Token.isIdent name.toList = true)
    (harg : argument? params args name.toList = some arg) {toks : List Token}
    (hspells : Spells (inserted arg) toks) : Fills params args name.toList toks := by
  refine ⟨inserted arg, ?_, hspells⟩
  have hword : Becomes params args name.toList _ := becomes_ident h
  rwa [Segment.fill_word, harg] at hword

/-- A region becomes itself and is split off as one token. -/
theorem fills_region {name : String} (h : Token.isRegion name.toList = true) :
    Fills params args name.toList [.region name] :=
  ⟨name.toList, fun _ => filled_region params args h, Token.spells_region name h⟩

section Marks

variable {cs cs' : List Char} {toks toks' : List Token}

/-- A symbol in front stays, as a token of its own. -/
theorem Fills.sym {c : Char} (hc : c ∈ symbols) (h : Fills params args cs toks) :
    Fills params args (c :: cs) (.sym c :: toks) := by
  obtain ⟨ds, hbecomes, hspells⟩ := h
  exact ⟨c :: ds, hbecomes.mark (by simp [hc]), hspells.sym hc⟩

/-- A blank in front is no token. -/
theorem Fills.blank (h : Fills params args cs toks) : Fills params args (' ' :: cs) toks := by
  obtain ⟨ds, hbecomes, hspells⟩ := h
  exact ⟨' ' :: ds, hbecomes.mark (by simp), hspells.blank⟩

/-- An arrow in front stays. -/
theorem Fills.arrow (h : Fills params args cs toks) :
    Fills params args ('-' :: '>' :: cs) (.arrow :: toks) := by
  obtain ⟨ds, hbecomes, hspells⟩ := h
  exact ⟨'-' :: '>' :: ds, (hbecomes.mark (by decide)).mark (by simp), hspells.arrow⟩

/-- A symbol ends the text before it. -/
theorem Fills.then_sym {c : Char} (h : Fills params args cs toks) (hc : c ∈ symbols)
    (h' : Fills params args cs' toks') : Fills params args (cs ++ c :: cs') (toks ++ .sym c :: toks') := by
  obtain ⟨ds, hbecomes, hspells⟩ := h
  obtain ⟨ds', hbecomes', hspells'⟩ := h'
  obtain ⟨-, -, -, hname, -, -, -, hcolon⟩ := Token.kinds_of_mem_symbols hc
  refine ⟨ds ++ c :: ds', hbecomes.append (hbecomes'.mark (by simp [hc])) ?_, hspells.then_sym hc hspells'⟩
  exact fun _ _ => Token.stops_cons hname hcolon

/-- A blank ends the text before it. -/
theorem Fills.then_blank (h : Fills params args cs toks) (h' : Fills params args cs' toks') :
    Fills params args (cs ++ ' ' :: cs') (toks ++ toks') := by
  obtain ⟨ds, hbecomes, hspells⟩ := h
  obtain ⟨ds', hbecomes', hspells'⟩ := h'
  refine ⟨ds ++ ' ' :: ds', hbecomes.append (hbecomes'.mark (by simp)) ?_, hspells.then_blank hspells'⟩
  exact fun _ _ => Token.stops_cons (Token.kinds_of_mark (by simp)).2.2.2 (by decide)

/-- The parts of a list are filled one by one. -/
theorem Fills.commaSep {parts : List (List Char)} {toks : List (List Token)}
    (h : List.Forall₂ (Fills params args) parts toks) :
    Fills params args (Text.commaSep parts) (Token.commaSep toks) := by
  induction h with
  | nil => exact fills_nil
  | cons hpart hparts ih =>
    cases hparts with
    | nil => exact hpart
    | cons hnext hparts =>
      rw [Text.commaSep, joinWith_cons_cons, List.append_assoc]
      exact hpart.then_sym (by decide) ih.blank

end Marks

end Becomes

/-! ## Printed types -/

/-- The name can be a parameter: it is an identifier, and no word that is printed in other places. -/
def isParam (name : String) : Bool :=
  Token.isIdent name.toList && name ≠ "fn" && name ≠ "mut" && name ≠ "const" && !Primitive.isName name

/-- At the root of the type, no parameter has arguments. -/
def rootUnapplied (params : List String) : Ty → Bool
  | .named name regions args => regions.isEmpty && args.isEmpty || !params.contains name
  | _ => true

/-- What is no parameter has no argument. -/
theorem argument?_eq_none {params args : List String} {w : List Char}
    (h : String.ofList w ∉ params) : argument? params args w = none := by
  rw [argument?, List.lookup_eq_none_iff]
  intro pair hpair
  have hmem := (List.of_mem_zip (List.mem_reverse.mp hpair)).1
  rw [bne_iff_ne]
  intro heq
  exact h (heq ▸ hmem)

section Printed

variable {params args : List String} (hparams : ∀ name ∈ params, isParam name = true)

include hparams

/-- A name that is no parameter is kept. -/
theorem fills_kept {name : String} (h : Token.isIdent name.toList = true) (hname : isParam name = false) :
    Fills params args name.toList [.ident name] := by
  refine fills_word h (argument?_eq_none ?_)
  rw [String.ofList_toList]
  intro hmem
  rw [hparams name hmem] at hname
  cases hname

/-- A number is kept, since no parameter starts with a digit. -/
theorem becomes_decimal_self (n : Nat) : Becomes params args (decimal n) (decimal n) := by
  have hword : Becomes params args (decimal n) _ := becomes_decimal n
  have hkeep : argument? params args (decimal n) = none := by
    refine argument?_eq_none fun hmem => ?_
    -- an identifier does not start with a digit
    have hident := hparams _ hmem
    obtain ⟨c, w, hn⟩ := List.exists_cons_of_ne_nil (decimal_ne_nil n)
    have hc : c.isDigit = true := isDigit_of_mem_decimal (by rw [hn]; exact List.mem_cons_self)
    simp [isParam, hn, Token.isIdent, (Token.kinds_of_isDigit hc).2.2.1] at hident
  rwa [Segment.fill_word, hkeep] at hword

/-- A number is kept and is one token. -/
theorem fills_number (n : Nat) :
    Fills params args (decimal n) [.number (String.ofList (decimal n))] :=
  ⟨decimal n, becomes_decimal_self hparams n, Token.spells_number n⟩

/-- A numbered variable is kept and is one token. -/
theorem fills_var (n : Nat) :
    Fills params args ('?' :: decimal n) [.var (String.ofList (decimal n))] :=
  ⟨'?' :: decimal n, (becomes_decimal_self hparams n).mark (by simp), Token.spells_var n⟩

variable {g : String → Option Phrase}
  (hleaf : ∀ name, Token.isIdent name.toList = true →
    Fills params args name.toList ((g name).getD (.bare name)).tokens)

include hleaf

omit hparams hleaf in
/-- Types of a list are filled one by one. -/
theorem forall₂_fills {ts : List Ty}
    (h : ∀ t ∈ ts, Fills params args t.chars (t.phraseWith g).tokens) :
    List.Forall₂ (Fills params args) (ts.map Ty.chars) ((ts.map (Ty.phraseWith g)).map Phrase.tokens) := by
  rw [List.map_map, List.forall₂_map_left_iff, List.forall₂_map_right_iff, List.forall₂_same]
  exact h

omit hparams hleaf in
/-- Region arguments are kept one by one. -/
theorem forall₂_fills_regions {regions : List Region} (h : regions.all Region.isSpellable = true) :
    List.Forall₂ (Fills params args) (regions.map Region.argChars)
      ((regions.map Region.phrase).map Phrase.tokens) := by
  rw [List.map_map, List.forall₂_map_left_iff, List.forall₂_map_right_iff, List.forall₂_same]
  intro r hr
  show Fills params args r.argChars [.region (if r.isElided then "'_" else r.name)]
  unfold Region.argChars
  by_cases helided : r.isElided = true
  · rw [if_pos helided, if_pos helided]
    exact fills_region (by decide : Token.isRegion "'_".toList = true)
  · rw [if_neg helided, if_neg helided]
    have hregion := List.all_eq_true.mp h r hr
    simp only [Region.isSpellable, helided, Bool.false_or, Bool.and_eq_true] at hregion
    exact fills_region hregion.1

omit hparams hleaf in
/-- A list in parentheses. -/
theorem fills_parenthesized {parts : List (List Char)} {toks : List (List Token)}
    (h : List.Forall₂ (Fills params args) parts toks) :
    Fills params args ('(' :: Text.commaSep parts ++ [')'])
      (.sym '(' :: Token.commaSep toks ++ [.sym ')']) :=
  ((Fills.commaSep h).then_sym (by decide) fills_nil).sym (by decide)

/-- The print of a canonical type becomes a text with the tokens of the phrase in which the parameters are
replaced. -/
theorem fills_phraseWith {t : Ty} (h : t.Canonical)
    (happlied : t.everywhere (rootUnapplied params) = true) :
    Fills params args t.chars (t.phraseWith g).tokens := by
  -- every word of the print but the bare names is kept: it cannot be a parameter, or has arguments
  induction t with
  | prim name =>
    have hname : Primitive.isName name = true := (Ty.canonical_iff.mp h).1
    rw [Ty.chars, Ty.phraseWith]
    by_cases hnever : name = "!"
    · rw [hnever]
      exact fills_nil.sym (by decide)
    · rw [if_neg hnever]
      exact fills_kept hparams (Ty.isIdent_of_isName hname hnever) (by simp [isParam, hname])
  | var id => exact fills_var hparams id.toNat
  | tuple elems ih =>
    have helems := forall₂_fills fun t ht =>
      ih t ht ((Ty.canonical_iff.mp h).2 t ht) ((Ty.everywhere_iff.mp happlied).2 t ht)
    rw [Ty.chars, Ty.phraseWith, Phrase.tokens, Ty.charsList_eq_map, Ty.phrasesWith_eq_map,
      Phrase.tokensList_eq_map]
    -- a tuple of one element is printed with a comma before the bracket
    rcases elems with _ | ⟨t, _ | ⟨u, ts⟩⟩
    · exact (fills_nil.sym (by decide)).sym (by decide)
    · cases helems with
      | cons ht _ =>
        have hclose : Fills params args [')'] [.sym ')'] := fills_nil.sym (by decide)
        simpa [Token.listed, Token.commaSep] using
          (ht.then_sym (c := ',') (by decide) hclose).sym (c := '(') (by decide)
    · have hone : ((t :: u :: ts).length == 1) = false := rfl
      rw [hone, Token.listed_false]
      exact fills_parenthesized helems
  | array elem size ih =>
    have helem := ih ((Ty.canonical_iff.mp h).2 elem (by simp [Ty.children]))
      ((Ty.everywhere_iff.mp happlied).2 elem (by simp [Ty.children]))
    have hsize : Fills params args _ _ :=
      (fills_number hparams size.toNat).then_sym (c := ']') (by decide) fills_nil
    rw [Ty.chars, Ty.phraseWith, Phrase.tokens]
    simpa using (helem.then_sym (c := ';') (by decide) hsize.blank).sym (c := '[') (by decide)
  | ref region isMut inner ih =>
    obtain ⟨hregion, hbelow⟩ := Ty.canonical_iff.mp h
    have hinner := ih (hbelow inner (by simp [Ty.children]))
      ((Ty.everywhere_iff.mp happlied).2 inner (by simp [Ty.children]))
    have hmut : Fills params args ((if isMut then ['m', 'u', 't', ' '] else []) ++ inner.chars)
        (Phrase.mutTokens isMut ++ (inner.phraseWith g).tokens) := by
      cases isMut with
      | false => exact hinner
      | true =>
        have hword : Fills params args "mut".toList [.ident "mut"] :=
          fills_kept hparams (by decide) (by decide)
        exact hword.then_blank hinner
    rw [Ty.chars, Ty.phraseWith, Phrase.tokens, List.cons_append, List.cons_append, List.append_assoc,
      List.cons_append, List.cons_append, List.append_assoc]
    refine Fills.sym (by decide) ?_
    by_cases helided : region.isElided = true
    · simpa [helided, Phrase.regionTokens] using hmut
    · simp only [Ty.rootCanonical, Region.isSpellable, helided, Bool.false_or, Bool.and_eq_true] at hregion
      simpa [helided, Phrase.regionTokens] using (fills_region hregion.1).then_blank hmut
  | ptr isMut inner ih =>
    have hinner := ih ((Ty.canonical_iff.mp h).2 inner (by simp [Ty.children]))
      ((Ty.everywhere_iff.mp happlied).2 inner (by simp [Ty.children]))
    have hword (word : String) (hident : Token.isIdent word.toList = true)
        (hkept : isParam word = false) :
        Fills params args ('*' :: (word.toList ++ ' ' :: inner.chars))
          (.sym '*' :: .ident word :: (inner.phraseWith g).tokens) :=
      ((fills_kept hparams hident hkept).then_blank hinner).sym (by decide)
    cases isMut with
    | false => exact hword "const" (by decide) (by decide)
    | true => exact hword "mut" (by decide) (by decide)
  | fn types ret ih ihret =>
    obtain ⟨hsome, hbelow⟩ := Ty.canonical_iff.mp h
    obtain ⟨ret, rfl⟩ := Option.isSome_iff_exists.mp hsome
    have hunapplied := (Ty.everywhere_iff.mp happlied).2
    have htypes := forall₂_fills fun t ht =>
      ih t ht (hbelow t (by simp [Ty.children, ht])) (hunapplied t (by simp [Ty.children, ht]))
    have hret := ihret ret rfl (hbelow ret (by simp [Ty.children])) (hunapplied ret (by simp [Ty.children]))
    have harrow : Fills params args (if ret.isUnit then [] else [' ', '-', '>', ' '] ++ ret.chars)
        ((if ret.isUnit then none else some (ret.phraseWith g)).elim [] fun p => .arrow :: p.tokens) := by
      by_cases hunit : ret.isUnit = true
      · rw [if_pos hunit, if_pos hunit]
        exact fills_nil
      · rw [if_neg hunit, if_neg hunit]
        exact hret.blank.arrow.blank
    have hword : Fills params args "fn".toList [.ident "fn"] :=
      fills_kept hparams (by decide) (by decide)
    have hlist := hword.then_sym (c := '(') (by decide)
      ((Fills.commaSep htypes).then_sym (c := ')') (by decide) harrow)
    rw [Ty.chars, Ty.phraseWith, Phrase.tokens_fn, Ty.charsList_eq_map, Ty.phrasesWith_eq_map,
      Token.listed_false]
    simpa using hlist
  | named name regions types ih =>
    obtain ⟨hroot, hbelow⟩ := Ty.canonical_iff.mp h
    obtain ⟨hunapplied, happlied⟩ := Ty.everywhere_iff.mp happlied
    simp only [Ty.rootCanonical, Bool.and_eq_true] at hroot
    have hident := hroot.1.1.1.1
    by_cases hbare : regions = [] ∧ types = []
    · obtain ⟨rfl, rfl⟩ := hbare
      exact hleaf name hident
    · have hparts : List.Forall₂ (Fills params args) (regions.map Region.argChars ++ types.map Ty.chars)
          ((regions.map Region.phrase).map Phrase.tokens ++
            (types.map (Ty.phraseWith g)).map Phrase.tokens) :=
        List.rel_append (forall₂_fills_regions hroot.1.2)
          (forall₂_fills fun t ht => ih t ht (hbelow t ht) (happlied t ht))
      have hkept : argument? params args name.toList = none := by
        refine argument?_eq_none ?_
        rw [String.ofList_toList]
        simpa [rootUnapplied, hbare] using hunapplied
      rw [Ty.phraseWith_applied g hbare, Phrase.tokens, Phrase.tokensList_eq_map, List.map_append,
        Token.listed_false, Ty.chars, Ty.charsList_eq_map]
      have hsome : regions.map Region.argChars ++ types.map Ty.chars ≠ [] := by simpa using hbare
      generalize regions.map Region.argChars ++ types.map Ty.chars = parts at hparts hsome ⊢
      cases parts with
      | nil => exact absurd rfl hsome
      | cons part parts =>
        simpa using (fills_word hident hkept).then_sym (c := '<') (by decide)
          ((Fills.commaSep hparts).then_sym (c := '>') (by decide) fills_nil)

end Printed

/-! ## Arguments -/

/-- Without parameters a text stays the same. -/
theorem filled_nil (cs : List Char) : filled [] [] cs = cs := by
  have hfill : Segment.fill [] [] = Segment.chars := by
    funext segment
    cases segment <;> rfl
  rw [filled, hfill, flatMap_chars_segments]

/-- The phrase of a printed type. -/
abbrev phrase (t : Ty) : Phrase := t.phraseWith fun _ => none

/-- The phrase of a canonical type can be written. -/
theorem fits_phrase {t : Ty} (h : t.Canonical) : (phrase t).Fits := h.fits_phraseWith (by simp)

/-- A printed type spells its phrase: this is the case in which there are no parameters. -/
theorem spells_phrase {t : Ty} (h : t.Canonical) : Spells t.chars (phrase t).tokens := by
  have hunapplied : t.everywhere (rootUnapplied []) = true :=
    Ty.everywhere_mono h fun u _ => by cases u <;> simp [rootUnapplied]
  obtain ⟨ds, hbecomes, hspells⟩ : Fills [] [] t.chars (phrase t).tokens :=
    fills_phraseWith (by simp) (fun name hname => fills_word hname rfl) h hunapplied
  rwa [← hbecomes.filled_eq, filled_nil] at hspells

/-- The phrase of a canonical type stands for the type. -/
theorem type_phrase {t : Ty} (h : t.Canonical) : (phrase t).type = t := by
  have hparse : Ty.parse t.render = .ok (phrase t).type := by
    refine (fits_phrase h).isType.parse_eq ?_
    rw [Ty.toList_render]
    exact (spells_phrase h).scan
  rw [h.spellable.parse_render_of_legible h.legible] at hparse
  exact (Except.ok.inj hparse).symm

/-- The phrase that is put in for a parameter: a path stands as it is, any other type in parentheses. -/
def argPhrase (t : Ty) : Phrase :=
  if isPath t.chars || isDigits t.chars then phrase t else .group [phrase t] false

/-- The print of an argument, as it is put in, is split into the tokens of its phrase. -/
theorem spells_inserted {t : Ty} (h : t.Canonical) : Spells (inserted t.render) (argPhrase t).tokens := by
  rw [inserted, Ty.toList_render, argPhrase]
  split
  · exact spells_phrase h
  · have hclosed := (spells_phrase h).then_sym (c := ')') (by decide) Token.spells_nil
    simpa [Phrase.tokens, Token.listed_false, Token.commaSep] using hclosed.sym (c := '(') (by decide)

/-- The phrase of an argument can be written. -/
theorem fits_argPhrase {t : Ty} (h : t.Canonical) : (argPhrase t).Fits := by
  rw [argPhrase]
  split
  · exact fits_phrase h
  · exact ⟨.group (List.forall_mem_singleton.mpr (fits_phrase h).isType) nofun, nofun⟩

/-- Parentheses around one type are not part of it. -/
theorem type_argPhrase {t : Ty} (h : t.Canonical) : (argPhrase t).type = t := by
  rw [argPhrase]
  split
  · exact type_phrase h
  · exact type_phrase h

/-! ## Parameters with their arguments -/

/-- The parameters have different names, so that it does not matter which of two pairs would win. -/
theorem argument?_render {params : List String} (h : params.Nodup) (args : List Ty) (name : String) :
    argument? params (args.map Ty.render) name.toList =
      ((params.zip args).lookup name).map Ty.render := by
  rw [argument?, String.ofList_toList]
  induction params generalizing args with
  | nil => rfl
  | cons param params ih =>
    cases args with
    | nil => rfl
    | cons t args =>
      rw [List.nodup_cons] at h
      rw [List.map_cons, List.zip_cons_cons, List.zip_cons_cons, List.reverse_cons, List.lookup_append,
        ih h.2]
      -- the last pair wins, and after the first one the name does not come again
      by_cases hname : name = param
      · subst hname
        have hnone : (params.zip args).lookup name = none := by
          rw [List.lookup_eq_none_iff]
          intro pair hpair
          rw [bne_iff_ne]
          intro heq
          exact h.1 (heq ▸ (List.of_mem_zip hpair).1)
        simp [hnone]
      · simp [List.lookup_cons, beq_false_of_ne hname]

/-- The phrase that is put in for a name, if it is a parameter. -/
def argPhrase? (params : List String) (args : List Ty) (name : String) : Option Phrase :=
  ((params.zip args).lookup name).map argPhrase

section Substitute

variable {params : List String} {args : List Ty} (hargs : ∀ t ∈ args, t.Canonical)

include hargs

/-- What is put in for a name is one of the arguments. -/
theorem canonical_of_lookup {name : String} {t : Ty} (h : (params.zip args).lookup name = some t) :
    t.Canonical :=
  hargs t (List.of_mem_zip (mem_of_lookup h)).2

/-- The phrase that is put in for a name can be written. -/
theorem fits_argPhrase? (name : String) (p : Phrase) (h : argPhrase? params args name = some p) :
    p.Fits := by
  obtain ⟨t, ht, rfl⟩ := Option.map_eq_some_iff.mp h
  exact fits_argPhrase (canonical_of_lookup hargs ht)

/-- The phrase that is put in for a name stands for the argument. -/
theorem type_argPhrase? (name : String) :
    (argPhrase? params args name).map Phrase.type = (params.zip args).lookup name := by
  rw [argPhrase?]
  cases hlookup : (params.zip args).lookup name with
  | none => rfl
  | some t => exact congrArg some (type_argPhrase (canonical_of_lookup hargs hlookup))

/-- A name becomes its argument if it is a parameter, and else is kept. -/
theorem fills_argPhrase? (hnodup : params.Nodup) (name : String) (hname : Token.isIdent name.toList = true) :
    Fills params (args.map Ty.render) name.toList
      ((argPhrase? params args name).getD (.bare name)).tokens := by
  have hargument := argument?_render hnodup args name
  rw [argPhrase?]
  cases hlookup : (params.zip args).lookup name with
  | none =>
    rw [hlookup] at hargument
    exact fills_word hname hargument
  | some t =>
    rw [hlookup] at hargument
    exact fills_param hname hargument (spells_inserted (canonical_of_lookup hargs hlookup))

end Substitute

/-- Putting printed arguments into a printed target is substitution: if the parameters stand in the target
only as names without arguments, the text is read as the target with each of them replaced by its argument,
all at once. -/
theorem parse_substitute {target : Ty} {params : List String} {args : List Ty}
    (htarget : target.Canonical) (hargs : ∀ t ∈ args, t.Canonical) (hnodup : params.Nodup)
    (hparams : ∀ name ∈ params, isParam name = true)
    (happlied : target.everywhere (rootUnapplied params) = true) :
    Ty.parse (substitute target.render params (args.map Ty.render)) =
      .ok (target.replaceBareNames fun name => (params.zip args).lookup name) := by
  obtain ⟨ds, hbecomes, hspells⟩ :=
    fills_phraseWith hparams (fills_argPhrase? hargs hnodup) htarget happlied
  have htext : (substitute target.render params (args.map Ty.render)).toList = ds := by
    rw [substitute, String.toList_ofList, Ty.toList_render]
    exact hbecomes.filled_eq
  have hfits : ∀ name p, argPhrase? params args name = some p → p.Fits := fits_argPhrase? hargs
  rw [(htarget.fits_phraseWith hfits).isType.parse_eq (htext ▸ hspells.scan),
    htarget.type_phraseWith hfits, funext (type_argPhrase? hargs)]

/-- The parameters change places. The region `'T` and the path `std::T` are not called like the parameter `T`,
and a reference is put in parentheses. -/
theorem parse_substitute_of_swap :
    let target : Ty := .fn [.ref ⟨"'T"⟩ true (.named "T" [] []),
      .named "Map" [⟨"'T"⟩] [.named "U" [] [], .array (.named "std::T" [] []) 8]] (some (.named "T" [] []))
    let args : List Ty := [.ref .elided false (.named "U" [] []), .named "T" [] []]
    substitute target.render ["T", "U"] (args.map Ty.render) =
        "fn(&'T mut (&U), Map<'T, T, [std::T; 8]>) -> (&U)" ∧
      Ty.parse (substitute target.render ["T", "U"] (args.map Ty.render)) =
        .ok (.fn [.ref ⟨"'T"⟩ true (.ref .elided false (.named "U" [] [])),
          .named "Map" [⟨"'T"⟩] [.named "T" [] [], .array (.named "std::T" [] []) 8]]
            (some (.ref .elided false (.named "U" [] [])))) := by
  intro target args
  have htarget : target.Canonical := by decide +kernel
  have hargs : ∀ t ∈ args, t.Canonical := by decide +kernel
  refine ⟨by decide +kernel, ?_⟩
  exact parse_substitute htarget hargs (by decide) (by decide +kernel) (by decide +kernel)

end Generics.Alias
