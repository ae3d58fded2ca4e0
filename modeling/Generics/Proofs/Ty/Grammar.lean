import Generics.Proofs.Ty.Phrase
import Generics.Proofs.Ty.Splitting

/-!
# The reader accepts the grammar

A text is read as a type if and only if its tokens are those of a phrase that stands for the type. The
other half of this, that phrases are read, is `Phrase.IsType.readable`. Here a phrase is found for
everything that is read. A phrase is determined by its tokens, since the reader finds where each part of
it ends.

## Main results

* `Ty.exists_phrase_of_read?`: what is read is a phrase;
* `Phrase.IsType.determined`: two phrases with the same tokens are one;
* `Ty.parse_grammar`: the texts that are read, as what, and what is said about all others.
-/

namespace Generics

namespace Token

/-- A comma and a list go on with another list. A comma before an empty one is the last. -/
theorem comma_cons_listed {parts : List (List Token)} {comma : Bool} (h : comma = true → parts ≠ []) :
    .sym ',' :: listed parts comma = listedMore parts (parts.isEmpty || comma) := by
  cases parts with
  | nil =>
    obtain rfl : comma = false := by simpa using h
    rfl
  | cons part parts =>
    rw [listed_cons, listedMore_cons]
    rfl

end Token

namespace Phrase

open Token (Delimits delimits_nil delimits_cons listed listedMore)

/-! ## What is read is a phrase -/

/-- A comma in front of a list makes it the rest of a list. -/
theorem comma_cons_listed {ps : List Phrase} {comma : Bool} (h : comma = true → ps ≠ []) :
    .sym ',' :: listed (ps.map tokens) comma = listedMore (ps.map tokens) (ps.isEmpty || comma) := by
  rw [Token.comma_cons_listed (by simpa using h), List.isEmpty_map]

/-- The tokens are those of the phrases of a list, of its closing bracket and of what follows. -/
structure Lists (close : Char) (ts : List Token) (ps : List Phrase) (comma : Bool) (rest : List Token) :
    Prop where
  comma_imp : comma = true → ps ≠ []
  eq_append : ts = listed (ps.map tokens) comma ++ .sym close :: rest

namespace Lists

variable {close : Char} {rest : List Token}

theorem nil : Lists close (.sym close :: rest) [] false rest := ⟨nofun, rfl⟩

theorem single (p : Phrase) : Lists close (p.tokens ++ .sym close :: rest) [p] false rest :=
  ⟨nofun, by simp [listed, Token.commaSep]⟩

theorem cons (p : Phrase) {ts : List Token} {ps : List Phrase} {comma : Bool}
    (h : Lists close ts ps comma rest) :
    Lists close (p.tokens ++ .sym ',' :: ts) (p :: ps) (ps.isEmpty || comma) rest where
  comma_imp _ := List.cons_ne_nil p ps
  eq_append := by
    rw [h.eq_append, List.map_cons, Token.listed_cons, ← comma_cons_listed h.comma_imp]
    simp

end Lists

/-- A region at the front, if there is one. -/
theorem exists_region_append (ts : List Token) :
    ∃ region, ts = regionTokens region ++ Ty.afterRegion ts ∧
      Ty.regionAt ts = (region.map Ty.regionOf).getD .elided := by
  unfold Ty.afterRegion Ty.regionAt
  split
  · rename_i name ts'
    exact ⟨some name, rfl, rfl⟩
  · exact ⟨none, rfl, rfl⟩

/-- The word `mut` at the front, if it is there. What is left starts with it only if it was there. -/
theorem mut_append_afterWord (ts : List Token) :
    mutTokens (Ty.startsWith "mut" ts) ++ Ty.afterWord "mut" ts = ts ∧
      (Ty.startsWith "mut" ts = false → (Ty.afterWord "mut" ts).head? ≠ some (.ident "mut")) := by
  by_cases hmut : Ty.startsWith "mut" ts = true
  · obtain ⟨ts', rfl⟩ := Ty.exists_of_startsWith hmut
    exact ⟨rfl, nofun⟩
  · rw [mutTokens, if_neg hmut, Ty.afterWord, if_neg hmut]
    refine ⟨rfl, fun _ hhead => ?_⟩
    obtain ⟨ts', rfl⟩ := List.head?_eq_some_iff.mp hhead
    exact hmut rfl

/-- The tokens are those of phrases that stand for the item, and of what follows. -/
def Writes (ts rest : List Token) : Ty.Item → Prop
  | .type t => ∃ p : Phrase, p.IsType ∧ ts = p.tokens ++ rest ∧ p.type = t
  | .ret t => ∃ r : Option Phrase, (∀ p, r = some p → p.IsType) ∧
      ts = (r.elim [] fun p => .arrow :: p.tokens) ++ rest ∧ r.elim .unit type = t
  | .list elems comma => ∃ ps, Lists ')' ts ps comma rest ∧ (∀ p ∈ ps, p.IsType) ∧ ps.map type = elems
  | .args regions types => ∃ ps comma, Lists '>' ts ps comma rest ∧
      (∀ p ∈ ps, p.region? = none → p.IsType) ∧ ps.filterMap region? = regions ∧ argTypes ps = types

/-- The type that a function returns stands last in it. -/
theorem type_fn (params : List Phrase) (comma : Bool) (ret : Option Phrase) :
    (fn params comma ret).type = .fn (params.map type) (some (ret.elim .unit type)) := by
  cases ret <;> simp [type]

/-- A type adds itself to the arguments. -/
theorem IsType.argTypes_cons {p : Phrase} (h : p.IsType) (ps : List Phrase) :
    argTypes (p :: ps) = p.type :: argTypes ps := by
  rw [argTypes, h.region?_eq_none]
  rfl

/-- What is read is written in phrases. -/
theorem writes_of_reads {ts rest : List Token} {x : Ty.Item} (h : Ty.Reads ts x rest) :
    Writes ts rest x := by
  induction h with
  | @var digits _ _ hid =>
    obtain ⟨hnumeral, rfl⟩ := readUInt64?_eq_some_iff.mp hid
    exact ⟨.var digits, .var hnumeral, rfl, rfl⟩
  | fn _ _ ihparams ihret =>
    obtain ⟨ps, hlists, hps, rfl⟩ := ihparams
    obtain ⟨r, hr, rfl, rfl⟩ := ihret
    refine ⟨.fn ps _ r, .fn hps hlists.comma_imp hr, ?_, type_fn ps _ r⟩
    simp [tokens_fn, hlists.eq_append]
  | @name name _ hfn _ => exact ⟨.bare name, .bare hfn, rfl, rfl⟩
  | @applied name _ _ _ _ hfn _ ihargs =>
    obtain ⟨ps, comma, hlists, hps, rfl, rfl⟩ := ihargs
    refine ⟨.applied name ps comma, .applied hfn hps hlists.comma_imp, ?_, rfl⟩
    simp [tokens, hlists.eq_append]
  | @paren _ _ _ comma _ ihelems =>
    obtain ⟨ps, hlists, hps, rfl⟩ := ihelems
    refine ⟨.group ps comma, .group hps hlists.comma_imp, ?_, type_group ps comma⟩
    simp [tokens, hlists.eq_append]
  | @array _ _ _ digits _ _ hsize ihelem =>
    obtain ⟨p, hp, rfl, rfl⟩ := ihelem
    obtain ⟨hnumeral, rfl⟩ := readUInt64?_eq_some_iff.mp hsize
    exact ⟨.array p digits, .array hp hnumeral, by simp [tokens], rfl⟩
  | @ref ts _ _ _ ihinner =>
    obtain ⟨p, hp, hafter, rfl⟩ := ihinner
    obtain ⟨region, hfront, hregion⟩ := exists_region_append ts
    obtain ⟨hword, hmut⟩ := mut_append_afterWord (Ty.afterRegion ts)
    -- the word `mut` was taken if it was there, so the type does not start with it
    rw [hafter] at hword hmut
    rw [List.head?_append_of_ne_nil _ hp.readable.tokens_ne_nil] at hmut
    refine ⟨.ref region (Ty.startsWith "mut" (Ty.afterRegion ts)) p, .ref hmut hp, ?_, ?_⟩
    · rw [tokens]
      simp only [List.cons_append, List.append_assoc, hword, ← hfront]
    · rw [type, hregion]
  | @ptr word _ _ _ hword _ ihinner =>
    obtain ⟨p, hp, rfl, rfl⟩ := ihinner
    refine ⟨.ptr (word = "mut") p, .ptr hp, ?_, rfl⟩
    rcases hword with rfl | rfl <;> rfl
  | never => exact ⟨.never, .never, rfl, rfl⟩
  | arrow _ ihret =>
    obtain ⟨p, hp, rfl, rfl⟩ := ihret
    exact ⟨some p, fun _ h => Option.some.inj h ▸ hp, rfl, rfl⟩
  | noArrow _ => exact ⟨none, by rintro _ ⟨⟩, rfl, rfl⟩
  | noElems => exact ⟨[], .nil, List.forall_mem_nil _, rfl⟩
  | lastElem _ ihelem =>
    obtain ⟨p, hp, rfl, rfl⟩ := ihelem
    exact ⟨[p], .single p, List.forall_mem_singleton.mpr hp, rfl⟩
  | elem _ _ ihelem ihelems =>
    obtain ⟨p, hp, rfl, rfl⟩ := ihelem
    obtain ⟨ps, hlists, hps, rfl⟩ := ihelems
    rw [List.isEmpty_map]
    exact ⟨p :: ps, hlists.cons p, List.forall_mem_cons.mpr ⟨hp, hps⟩, rfl⟩
  | noArgs => exact ⟨[], false, .nil, List.forall_mem_nil _, rfl, rfl⟩
  | @lastRegion name _ =>
    exact ⟨[.regionArg name], false, .single (.regionArg name),
      List.forall_mem_singleton.mpr (by rintro ⟨⟩), rfl, rfl⟩
  | @region name _ _ _ _ _ ihargs =>
    obtain ⟨ps, comma, hlists, hps, rfl, rfl⟩ := ihargs
    exact ⟨.regionArg name :: ps, _, hlists.cons (.regionArg name),
      List.forall_mem_cons.mpr ⟨by rintro ⟨⟩, hps⟩, rfl, rfl⟩
  | lastArg _ iharg =>
    obtain ⟨p, hp, rfl, rfl⟩ := iharg
    exact ⟨[p], false, .single p, List.forall_mem_singleton.mpr fun _ => hp,
      List.filterMap_cons_none hp.region?_eq_none, hp.argTypes_cons []⟩
  | arg _ _ iharg ihargs =>
    obtain ⟨p, hp, rfl, rfl⟩ := iharg
    obtain ⟨ps, comma, hlists, hps, rfl, rfl⟩ := ihargs
    exact ⟨p :: ps, _, hlists.cons p, List.forall_mem_cons.mpr ⟨fun _ => hp, hps⟩,
      List.filterMap_cons_none hp.region?_eq_none, hp.argTypes_cons ps⟩

end Phrase

/-- What is read is a phrase. -/
theorem Ty.exists_phrase_of_read? {ts rest : List Token} {t : Ty} (h : read? ts = some (t, rest)) :
    ∃ p : Phrase, p.IsType ∧ ts = p.tokens ++ rest ∧ p.type = t :=
  Phrase.writes_of_reads (read?_eq_some_iff.mp h)

namespace Phrase

open Token (Delimits delimits_nil delimits_cons listed listedMore listed_cons listedMore_cons
  delimits_listedMore)

/-! ## A phrase is determined by its tokens -/

/-- The phrase is a region or a type. -/
def IsArg (p : Phrase) : Prop := (∃ name, p = .regionArg name) ∨ p.IsType

/-- A phrase is an argument if it is a type unless it is a region. -/
theorem isArg_of_imp {p : Phrase} (h : p.region? = none → p.IsType) : p.IsArg := by
  cases p with
  | regionArg name => exact .inl ⟨name, rfl⟩
  | _ => exact .inr (h rfl)

/-- Among regions and types, the phrase is the only one with its tokens. -/
def Determined (p : Phrase) : Prop := ∀ q : Phrase, q.IsArg → p.tokens = q.tokens → p = q

/-- Nothing that ends a type starts an argument. -/
theorem IsArg.head?_ne {p : Phrase} (h : p.IsArg) {tok : Token} (htok : tok.endsTy = true)
    {rest : List Token} (hrest : Delimits rest) : (p.tokens ++ rest).head? ≠ some tok := by
  rcases h with ⟨name, rfl⟩ | h
  · rintro ⟨⟩
    cases htok
  · exact h.readable.head?_ne (Token.startsTy_of_endsTy htok) hrest

/-- No type begins with a region. -/
theorem IsType.ne_region_cons {p : Phrase} (h : p.IsType) {rest : List Token} (hrest : Delimits rest)
    (name : String) (ts : List Token) : p.tokens ++ rest ≠ .region name :: ts := by
  intro heq
  have hhead : (p.tokens ++ rest).head? ≠ some (.region name) := h.readable.head?_ne rfl hrest
  rw [heq] at hhead
  exact hhead rfl

/-- The end of an argument is where the reader finds it. -/
theorem IsArg.append_inj {p q : Phrase} (hp : p.IsArg) (hq : q.IsArg) {r s : List Token}
    (hr : Delimits r) (hs : Delimits s) (h : p.tokens ++ r = q.tokens ++ s) :
    p.tokens = q.tokens ∧ r = s := by
  rcases hp with ⟨name, rfl⟩ | hp
  · rcases hq with ⟨name', rfl⟩ | hq
    · obtain ⟨hname, hrest⟩ := List.cons.inj h
      exact ⟨congrArg (fun tok => [tok]) hname, hrest⟩
    · exact absurd h.symm (hq.ne_region_cons hs name r)
  · rcases hq with ⟨name, rfl⟩ | hq
    · exact absurd h (hp.ne_region_cons hr name s)
    · -- both are read from the same tokens, and the reader leaves the same rest
      have hread := hp.readable r hr
      rw [h, hq.readable s hs] at hread
      obtain ⟨-, rfl⟩ := Prod.mk.inj (Option.some.inj hread)
      exact ⟨List.append_cancel_right h, rfl⟩

section Lists

variable {close : Char} (hclose : (Token.sym close).endsTy = true) (hcomma : close ≠ ',')

include hclose hcomma

/-- The rest of a list is determined by its tokens, if each phrase in it is. -/
theorem listedMore_inj {ps qs : List Phrase} (hps : ∀ p ∈ ps, p.IsArg ∧ p.Determined)
    (hqs : ∀ q ∈ qs, q.IsArg) {comma comma' : Bool} {r s : List Token}
    (h : listedMore (ps.map tokens) comma ++ .sym close :: r =
      listedMore (qs.map tokens) comma' ++ .sym close :: s) :
    ps = qs ∧ comma = comma' ∧ r = s := by
  -- a comma before the bracket is not followed by a phrase
  have hend {q : Phrase} (hq : q.IsArg) (qs : List Phrase) (comma : Bool) (r s : List Token)
      (hcons : .sym close :: r = q.tokens ++ (listedMore (qs.map tokens) comma ++ .sym close :: s)) :
      False := by
    have hhead := hq.head?_ne hclose (delimits_listedMore (qs.map tokens) comma close hclose s)
    rw [← hcons] at hhead
    exact hhead rfl
  induction ps generalizing qs with
  | nil =>
    cases qs with
    | nil => cases comma <;> cases comma' <;> grind [listedMore]
    | cons q qs =>
      rw [List.map_cons, listedMore_cons, List.append_assoc, List.cons_append] at h
      cases comma with
      | false => simp [listedMore, hcomma] at h
      | true => exact (hend (hqs q List.mem_cons_self) qs comma' r s (List.cons.inj h).2).elim
  | cons p ps ih =>
    obtain ⟨hp, hps⟩ := List.forall_mem_cons.mp hps
    rw [List.map_cons, listedMore_cons, List.append_assoc, List.cons_append] at h
    cases qs with
    | nil =>
      cases comma' with
      | false => simp [listedMore, hcomma.symm] at h
      | true => exact (hend hp.1 ps comma s r (List.cons.inj h).2.symm).elim
    | cons q qs =>
      obtain ⟨hq, hqs⟩ := List.forall_mem_cons.mp hqs
      rw [List.map_cons, listedMore_cons, List.append_assoc, List.cons_append] at h
      obtain ⟨htokens, hmore⟩ := hp.1.append_inj hq (delimits_listedMore _ comma close hclose r)
        (delimits_listedMore _ comma' close hclose s) (List.cons.inj h).2
      obtain ⟨rfl, hrest⟩ := ih hps hqs hmore
      exact ⟨by rw [hp.2 q hq htokens], hrest⟩

/-- A list is determined by its tokens, if each phrase in it is. -/
theorem listed_inj {ps qs : List Phrase} (hps : ∀ p ∈ ps, p.IsArg ∧ p.Determined)
    (hqs : ∀ q ∈ qs, q.IsArg) {comma comma' : Bool} (hp : comma = true → ps ≠ [])
    (hq : comma' = true → qs ≠ []) {r s : List Token}
    (h : listed (ps.map tokens) comma ++ .sym close :: r =
      listed (qs.map tokens) comma' ++ .sym close :: s) :
    ps = qs ∧ comma = comma' ∧ r = s := by
  -- with a comma in front, both lists are the rest of another one
  have hmore := congrArg (.sym ',' :: ·) h
  simp only [← List.cons_append, comma_cons_listed hp, comma_cons_listed hq] at hmore
  obtain ⟨rfl, hlast, hrest⟩ := listedMore_inj hclose hcomma hps hqs hmore
  refine ⟨rfl, ?_, hrest⟩
  cases ps with
  | nil => rw [Bool.eq_false_iff.mpr fun h' => hp h' rfl, Bool.eq_false_iff.mpr fun h' => hq h' rfl]
  | cons p ps => exact hlast

end Lists

/-- What stands between `&` and a type is determined by the tokens. -/
theorem ref_inj {region region' : Option String} {isMut isMut' : Bool} {inner inner' : Phrase}
    (hmut : isMut = false → inner.tokens.head? ≠ some (.ident "mut")) (hinner : inner.IsType)
    (hmut' : isMut' = false → inner'.tokens.head? ≠ some (.ident "mut")) (hinner' : inner'.IsType)
    (h : (ref region isMut inner).tokens = (ref region' isMut' inner').tokens) :
    region = region' ∧ isMut = isMut' ∧ inner.tokens = inner'.tokens := by
  have hfront := hinner.readable.ref_front region hmut delimits_nil
  have hfront' := hinner'.readable.ref_front region' hmut' delimits_nil
  rw [List.append_nil] at hfront hfront'
  simp only [tokens, List.cons_append, List.cons.injEq, true_and, List.append_assoc] at h
  have hafter := congrArg Ty.afterRegion h
  rw [hfront.1.2, hfront'.1.2] at hafter
  refine ⟨?_, ?_, ?_⟩
  · rw [hafter] at h
    have hregions := List.append_cancel_right h
    cases region <;> cases region' <;> simp_all [regionTokens]
  · rw [← hfront.2.1, ← hfront'.2.1, hafter]
  · rw [← hfront.2.2, ← hfront'.2.2, hafter]

/-- A region is not mistaken for a type, nor for another region. -/
theorem determined_of_imp {p : Phrase} (h : p.region? = none → p.Determined) : p.Determined := by
  cases p with
  | regionArg name =>
    rintro q (⟨name', rfl⟩ | hq) heq
    · simpa [tokens] using heq
    · have htokens : q.tokens ++ [] = [.region name] := (List.append_nil _).trans heq.symm
      exact absurd htokens (hq.ne_region_cons delimits_nil name [])
  | _ => exact h rfl

/-- A type is determined by its tokens if it is so among types. -/
theorem determined_of_types {p : Phrase} (hp : p.IsType)
    (h : ∀ q : Phrase, q.IsType → p.tokens = q.tokens → p = q) : p.Determined := by
  rintro q (⟨name, rfl⟩ | hq) heq
  · have htokens : p.tokens ++ [] = [.region name] := (List.append_nil _).trans heq
    exact absurd htokens (hp.ne_region_cons delimits_nil name [])
  · exact h q hq heq

/-- Two phrases with the same tokens are one. -/
theorem IsType.determined {p : Phrase} (h : p.IsType) : p.Determined := by
  -- the first token tells what kind of phrase it is; then the parts are compared one by one
  induction h with
  | var hid =>
    refine determined_of_types (.var hid) fun q hq heq => ?_
    cases hq with
    | var hid' => simpa [tokens] using heq
    | _ => simp [tokens, tokens_fn] at heq
  | never =>
    refine determined_of_types .never fun q hq heq => ?_
    cases hq with
    | never => rfl
    | _ => simp [tokens, tokens_fn] at heq
  | bare hfn =>
    refine determined_of_types (.bare hfn) fun q hq heq => ?_
    cases hq with
    | bare hfn' => simpa [tokens] using heq
    | _ => simp [tokens, tokens_fn] at heq
  | @applied name args comma hfn hargs hcomma ih =>
    refine determined_of_types (.applied hfn hargs hcomma) fun q hq heq => ?_
    cases hq with
    | @applied name' args' comma' hfn' hargs' hcomma' =>
      simp only [tokens, tokensList_eq_map, List.cons_append, List.cons.injEq, Token.ident.injEq,
        true_and] at heq
      -- an argument is a region, which its token determines, or a type
      have hps : ∀ p ∈ args, p.IsArg ∧ p.Determined := fun p hp =>
        ⟨isArg_of_imp (hargs p hp), determined_of_imp (ih p hp)⟩
      obtain ⟨rfl, rfl, -⟩ := listed_inj rfl (by decide) hps
        (fun q hq => isArg_of_imp (hargs' q hq)) hcomma hcomma' heq.2
      rw [heq.1]
    | _ => simp [tokens, tokens_fn] at heq
  | @ref region isMut inner hmut hinner ih =>
    refine determined_of_types (.ref hmut hinner) fun q hq heq => ?_
    cases hq with
    | @ref region' isMut' inner' hmut' hinner' =>
      obtain ⟨rfl, rfl, htokens⟩ := ref_inj hmut hinner hmut' hinner' heq
      rw [ih inner' (.inr hinner') htokens]
    | _ => simp [tokens, tokens_fn] at heq
  | @ptr isMut inner hinner ih =>
    refine determined_of_types (.ptr hinner) fun q hq heq => ?_
    cases hq with
    | @ptr isMut' inner' hinner' =>
      simp only [tokens, List.cons.injEq, Token.ident.injEq, true_and] at heq
      rw [ih inner' (.inr hinner') heq.2]
      cases isMut <;> cases isMut' <;> simp_all
    | _ => simp [tokens, tokens_fn] at heq
  | @group elems comma helems hcomma ih =>
    refine determined_of_types (.group helems hcomma) fun q hq heq => ?_
    cases hq with
    | @group elems' comma' helems' hcomma' =>
      simp only [tokens, tokensList_eq_map, List.cons_append, List.cons.injEq, true_and] at heq
      obtain ⟨rfl, rfl, -⟩ := listed_inj rfl (by decide) (fun p hp => ⟨.inr (helems p hp), ih p hp⟩)
        (fun q hq => .inr (helems' q hq)) hcomma hcomma' heq
      rfl
    | _ => simp [tokens, tokens_fn] at heq
  | @array elem size helem hsize ih =>
    refine determined_of_types (.array helem hsize) fun q hq heq => ?_
    cases hq with
    | @array elem' size' helem' hsize' =>
      simp only [tokens, List.cons_append, List.cons.injEq, true_and] at heq
      obtain ⟨htokens, hrest⟩ := IsArg.append_inj (.inr helem) (.inr helem') (delimits_cons rfl _)
        (delimits_cons rfl _) heq
      rw [ih elem' (.inr helem') htokens]
      simpa using hrest
    | _ => simp [tokens, tokens_fn] at heq
  | @fn params comma ret hparams hcomma hret ih ihret =>
    refine determined_of_types (.fn hparams hcomma hret) fun q hq heq => ?_
    cases hq with
    | @fn params' comma' ret' hparams' hcomma' hret' =>
      simp only [tokens_fn, List.cons.injEq, true_and] at heq
      obtain ⟨rfl, rfl, hrest⟩ := listed_inj rfl (by decide)
        (fun p hp => ⟨.inr (hparams p hp), ih p hp⟩) (fun q hq => .inr (hparams' q hq)) hcomma hcomma' heq
      -- the arrow shows whether there is a return type
      cases ret with
      | none => cases ret' <;> simp_all
      | some p =>
        cases ret' with
        | none => simp at hrest
        | some p' => rw [ihret p rfl p' (.inr (hret' p' rfl)) (List.cons.inj hrest).2]
    | _ => simp [tokens, tokens_fn] at heq

/-- The text is a way to write the phrase, which follows the grammar of types. -/
def IsWritten (p : Phrase) (text : String) : Prop := p.IsType ∧ Token.Splits text.toList p.tokens

/-- A text is a way to write one phrase at most. -/
theorem IsWritten.eq {p q : Phrase} {text : String} (hp : p.IsWritten text) (hq : q.IsWritten text) :
    p = q := by
  have hscan := Token.scan_eq_ok_iff.mpr hp.2
  rw [Token.scan_eq_ok_iff.mpr hq.2] at hscan
  exact hp.1.determined q (.inr hq.1) (Except.ok.inj hscan).symm

end Phrase

namespace Ty

/-- The parser accepts the texts of the grammar, and reads the type of the phrase. -/
theorem parse_eq_ok_iff_isWritten {text : String} {t : Ty} :
    parse text = .ok t ↔ ∃ p : Phrase, p.IsWritten text ∧ p.type = t := by
  constructor
  · intro h
    obtain ⟨toks, hscan, hread⟩ := parse_eq_ok_iff.mp h
    obtain ⟨p, hp, rfl, rfl⟩ := exists_phrase_of_read? hread
    rw [List.append_nil] at hscan
    exact ⟨p, ⟨hp, Token.scan_eq_ok_iff.mp hscan⟩, rfl⟩
  · rintro ⟨p, ⟨hp, hsplits⟩, rfl⟩
    exact hp.parse_eq (Token.scan_eq_ok_iff.mpr hsplits)

/-- A text that cannot be read is quoted with the reason. -/
theorem parse_error {text : String} {e : Error} (h : parse text = .error e) :
    ∃ m : Malformation, e = .malformedType text m.reason := by
  unfold parse at h
  cases hchars : parseChars text.toList with
  | ok t =>
    rw [hchars] at h
    cases h
  | error m =>
    rw [hchars] at h
    exact ⟨m, (Except.error.inj h).symm⟩

/-- A text is read as a type if and only if it splits into the tokens of a phrase that follows the grammar
and stands for the type. There is at most one such phrase, and if there is none, the text is malformed. -/
theorem parse_grammar (text : String) :
    (∀ t, parse text = .ok t ↔ ∃ p : Phrase, p.IsWritten text ∧ p.type = t) ∧
      (∀ p q : Phrase, p.IsWritten text → q.IsWritten text → p = q) ∧
      ((¬∃ p : Phrase, p.IsWritten text) →
        ∃ m : Malformation, parse text = .error (.malformedType text m.reason)) := by
  refine ⟨fun t => parse_eq_ok_iff_isWritten, fun p q => Phrase.IsWritten.eq, fun hnone => ?_⟩
  cases hparse : parse text with
  | ok t =>
    obtain ⟨p, hp, -⟩ := parse_eq_ok_iff_isWritten.mp hparse
    exact absurd ⟨p, hp⟩ hnone
  | error e =>
    obtain ⟨m, rfl⟩ := parse_error hparse
    exact ⟨m, rfl⟩

end Ty

end Generics
