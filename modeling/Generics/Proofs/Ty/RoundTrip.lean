import Generics.Proofs.Ty.Reads
import Generics.Proofs.Ty.Spelling

/-!
# Reading a printed type

What a printed type is read as. Two things are lost in print. A name without arguments that is called
like a built-in type is read as that type. And after `&` the name `mut` is read as the word that makes
the reference mutable, so that no type is left to read. `Ty.reread` says this for a whole type, and
the reader agrees with it wherever the type stands.

## Main results

* `Ty.reread`: the type that a printed type is read as, if it can be read;
* `Ty.Spellable.readsBack`: the reader does what `Ty.reread` says.
-/

namespace Generics

namespace Token

/-- The token can stand after a type in a printed type. -/
def endsTy : Token → Bool
  | .sym c => [',', ')', ']', '>', ';'].contains c
  | _ => false

/-- No token both ends a type and starts one. -/
theorem startsTy_of_endsTy {tok : Token} (h : tok.endsTy = true) : tok.startsTy = false := by
  cases tok with
  | sym c =>
    have hall : [',', ')', ']', '>', ';'].all (fun c => !(sym c).startsTy) = true := by decide
    simpa using List.all_eq_true.mp hall c (List.contains_iff_mem.mp h)
  | _ => cases h

/-- Nothing that goes on with a type stands at the front. -/
def Delimits (toks : List Token) : Prop := ∀ tok ∈ toks.head?, tok.endsTy = true

theorem delimits_nil : Delimits [] := by
  simp [Delimits]

/-- A token that ends a type delimits it. -/
theorem delimits_cons {tok : Token} (h : tok.endsTy = true) (toks : List Token) :
    Delimits (tok :: toks) := by
  simpa [Delimits] using h

/-- What delimits a type does not start with another token. -/
theorem Delimits.head?_ne {toks : List Token} (h : Delimits toks) (tok : Token)
    (htok : tok.endsTy = false) : toks.head? ≠ some tok := by
  intro hhead
  rw [h tok hhead] at htok
  cases htok

/-- A comma stands before each part but the first. -/
theorem commaSep_cons (part : List Token) (parts : List (List Token)) :
    commaSep (part :: parts) = part ++ parts.flatMap (.sym ',' :: ·) := by
  induction parts generalizing part with
  | nil => simp [commaSep]
  | cons next parts ih => simp [commaSep, ih]

end Token

namespace Ty

open Text
open Token (Delimits delimits_nil delimits_cons commaSep_cons)

/-- The type is a nominal type of the given name. -/
def isCalled (name : String) : Ty → Bool
  | .named n _ _ => n = name
  | _ => false

mutual

/-- The type that a printed type is read as, if it can be read. A name without arguments that is
called like a built-in type is read as that type. After `&`, the name `mut` is read as the word that
makes a reference mutable, and then no type follows. -/
def reread : Ty → Option Ty
  | .prim name => some (.prim name)
  | .var id => some (.var id)
  | .tuple elems => (rereadList elems).map .tuple
  | .array elem size => elem.reread.map (.array · size)
  | .ref region isMut inner =>
    if !isMut && inner.isCalled "mut" then none else inner.reread.map (.ref region isMut)
  | .ptr isMut inner => inner.reread.map (.ptr isMut)
  | .fn params none => (rereadList params).map (.fn · (some unit))
  | .fn params (some ret) =>
    (rereadList params).bind fun params => ret.reread.map fun ret => .fn params (some ret)
  | .named name [] [] => some (ofName name)
  | .named name regions args => (rereadList args).map (.named name regions)

/-- The types that the printed types of a list are read as. -/
def rereadList : List Ty → Option (List Ty)
  | [] => some []
  | t :: ts => t.reread.bind fun t => (rereadList ts).map (t :: ·)

end

/-- The tokens of a type start with one that starts a type. -/
theorem startsTy_tokens (t : Ty) : ∃ tok, t.tokens.head? = some tok ∧ tok.startsTy = true := by
  cases t with
  | prim name =>
    rw [tokens]
    by_cases h : name = "!"
    · rw [if_pos h]
      exact ⟨_, rfl, rfl⟩
    · rw [if_neg h]
      exact ⟨_, rfl, rfl⟩
  | tuple elems =>
    rw [tokens]
    split <;> exact ⟨_, rfl, rfl⟩
  | named name regions args =>
    rw [tokens]
    split <;> exact ⟨_, rfl, rfl⟩
  | fn params ret =>
    cases ret <;> rw [tokens] <;> exact ⟨_, rfl, rfl⟩
  | _ =>
    rw [tokens]
    exact ⟨_, rfl, rfl⟩

/-- The tokens of a type do not start with another token. -/
theorem head?_tokens_ne (t : Ty) (rest : List Token) {tok : Token} (h : tok.startsTy = false) :
    (t.tokens ++ rest).head? ≠ some tok := by
  obtain ⟨first, hhead, hfirst⟩ := startsTy_tokens t
  rw [List.head?_append, hhead, Option.some_or]
  rintro ⟨⟩
  rw [h] at hfirst
  cases hfirst

/-- The printed type is read as `reread` says, whatever delimits it. -/
def ReadsBack (t : Ty) : Prop :=
  ∀ rest, Delimits rest → read? (t.tokens ++ rest) = t.reread.map (·, rest)

/-- The rest of a list delimits its first part. -/
theorem delimits_flatMap (parts : List (List Token)) (close : Char)
    (hclose : (Token.sym close).endsTy = true) (rest : List Token) :
    Delimits (parts.flatMap (.sym ',' :: ·) ++ .sym close :: rest) := by
  cases parts with
  | nil => exact delimits_cons hclose rest
  | cons part parts => exact delimits_cons rfl _

/-- The first type of a list is read back, and then the rest of the list. -/
theorem readList?_tokens {close : Char} (hstart : (Token.sym close).startsTy = false) {t : Ty}
    (h : t.ReadsBack) {rest : List Token} (hrest : Delimits rest) :
    readList? close (t.tokens ++ rest) = t.reread.bind fun t =>
      (readMore? close rest).map fun more => ((t :: more.1.1, more.1.2), more.2) := by
  rw [readList?_eq (head?_tokens_ne t rest hstart), h rest hrest]
  cases t.reread <;> rfl

/-- The other types of a list are read back one by one. -/
theorem readMore?_tokens {ts : List Ty} (h : ∀ t ∈ ts, t.ReadsBack) (rest : List Token) :
    readMore? ')' ((ts.map tokens).flatMap (.sym ',' :: ·) ++ .sym ')' :: rest) =
      (rereadList ts).map fun ts => ((ts, false), rest) := by
  induction ts with
  | nil => exact readMore?_close (by decide) rest
  | cons t ts ih =>
    obtain ⟨ht, hts⟩ := List.forall_mem_cons.mp h
    have hdelimits := delimits_flatMap (ts.map tokens) ')' rfl rest
    simp only [List.map_cons, List.flatMap_cons, List.cons_append, List.append_assoc, readMore?]
    rw [readList?_tokens rfl ht hdelimits, ih hts, rereadList]
    cases t.reread <;> cases rereadList ts <;> rfl

/-- The types of a printed list in parentheses. -/
theorem readList?_commaSep {ts : List Ty} (h : ∀ t ∈ ts, t.ReadsBack) (rest : List Token) :
    readList? ')' (Token.commaSep (ts.map tokens) ++ .sym ')' :: rest) =
      (rereadList ts).map fun ts => ((ts, false), rest) := by
  cases ts with
  | nil => exact readList?_close ')' rest
  | cons t ts =>
    obtain ⟨ht, hts⟩ := List.forall_mem_cons.mp h
    have hdelimits := delimits_flatMap (ts.map tokens) ')' rfl rest
    rw [List.map_cons, commaSep_cons, List.append_assoc, readList?_tokens rfl ht hdelimits,
      readMore?_tokens hts, rereadList]
    cases t.reread <;> cases rereadList ts <;> rfl

/-- A type argument is read back, and then the other arguments. -/
theorem readArgs?_tokens {t : Ty} (h : t.ReadsBack) {rest : List Token} (hrest : Delimits rest) :
    readArgs? (t.tokens ++ rest) = t.reread.bind fun t =>
      (readMoreArgs? rest).map fun more => ((more.1.1, t :: more.1.2), more.2) := by
  rw [readArgs?_eq (head?_tokens_ne t rest rfl) (fun _ => head?_tokens_ne t rest rfl), h rest hrest]
  cases t.reread <;> rfl

/-- Type arguments are read back one by one. -/
theorem readMoreArgs?_tokens {args : List Ty} (h : ∀ t ∈ args, t.ReadsBack) (rest : List Token) :
    readMoreArgs? ((args.map tokens).flatMap (.sym ',' :: ·) ++ .sym '>' :: rest) =
      (rereadList args).map fun args => (([], args), rest) := by
  induction args with
  | nil => rfl
  | cons t args ih =>
    obtain ⟨ht, hargs⟩ := List.forall_mem_cons.mp h
    have hdelimits := delimits_flatMap (args.map tokens) '>' rfl rest
    simp only [List.map_cons, List.flatMap_cons, List.cons_append, List.append_assoc, readMoreArgs?]
    rw [readArgs?_tokens ht hdelimits, ih hargs, rereadList]
    cases t.reread <;> cases rereadList args <;> rfl

/-- A region among arguments is read as it is written. -/
theorem regionOf_arg {r : Region} (h : r.isSpellable = true) :
    regionOf (if r.isElided then "'_" else r.name) = r := by
  by_cases helided : r.isElided = true
  · rw [if_pos helided, Region.isElided_iff.mp helided]
    rfl
  · simp only [Region.isSpellable, helided, Bool.false_or, Bool.and_eq_true] at h
    rw [if_neg helided, regionOf, if_neg (by simpa using h.2)]

/-- A region argument is read back, and then the other arguments. -/
theorem readArgs?_argToken {r : Region} (h : r.isSpellable = true) (ts : List Token) :
    readArgs? (r.argToken :: ts) = (readMoreArgs? ts).map fun more =>
      ((r :: more.1.1, more.1.2), more.2) := by
  rw [Region.argToken, readArgs?_region, regionOf_arg h]

/-- Regions come before types when arguments are read back. -/
theorem readMoreArgs?_parts {regions : List Region} (hregions : regions.all Region.isSpellable = true)
    {args : List Ty} (h : ∀ t ∈ args, t.ReadsBack) (rest : List Token) :
    readMoreArgs? (((regions.map fun r => [r.argToken]) ++ args.map tokens).flatMap (.sym ',' :: ·) ++
      .sym '>' :: rest) = (rereadList args).map fun args => ((regions, args), rest) := by
  induction regions with
  | nil => exact readMoreArgs?_tokens h rest
  | cons r regions ih =>
    rw [List.all_cons, Bool.and_eq_true] at hregions
    simp only [List.map_cons, List.cons_append, List.flatMap_cons, List.nil_append]
    rw [readMoreArgs?_comma, readArgs?_argToken hregions.1, ih hregions.2]
    cases rereadList args <;> rfl

/-- The arguments of a printed name that has some. -/
theorem readArgs?_parts {regions : List Region} (hregions : regions.all Region.isSpellable = true)
    {args : List Ty} (h : ∀ t ∈ args, t.ReadsBack) (hsome : regions ≠ [] ∨ args ≠ [])
    (rest : List Token) :
    readArgs? (Token.commaSep ((regions.map fun r => [r.argToken]) ++ args.map tokens) ++
      .sym '>' :: rest) = (rereadList args).map fun args => ((regions, args), rest) := by
  cases regions with
  | cons r regions =>
    rw [List.all_cons, Bool.and_eq_true] at hregions
    rw [List.map_cons, List.cons_append, commaSep_cons, List.append_assoc, List.singleton_append,
      readArgs?_argToken hregions.1, readMoreArgs?_parts hregions.2 h]
    cases rereadList args <;> rfl
  | nil =>
    cases args with
    | nil => simp at hsome
    | cons t args =>
      obtain ⟨ht, hargs⟩ := List.forall_mem_cons.mp h
      have hdelimits := delimits_flatMap (args.map tokens) '>' rfl rest
      rw [List.map_nil, List.nil_append, List.map_cons, commaSep_cons, List.append_assoc,
        readArgs?_tokens ht hdelimits, readMoreArgs?_tokens hargs, rereadList]
      cases t.reread <;> cases rereadList args <;> rfl

/-- The tokens of a name with arguments. -/
theorem tokens_applied {name : String} {regions : List Region} {args : List Ty}
    (h : regions ≠ [] ∨ args ≠ []) :
    (Ty.named name regions args).tokens = .ident name :: .sym '<' ::
      Token.commaSep ((regions.map fun r => [r.argToken]) ++ args.map tokens) ++ [.sym '>'] := by
  rw [tokens, tokensList_eq_map]
  split
  · simp_all
  · rfl

/-- A name with arguments is read back if its arguments are. -/
theorem reread_applied {name : String} {regions : List Region} {args : List Ty}
    (h : regions ≠ [] ∨ args ≠ []) :
    (Ty.named name regions args).reread = (rereadList args).map (.named name regions) :=
  reread.eq_10 name regions args fun hregions hargs => h.elim (· hregions) (· hargs)

/-- The names of built-in types are no words of the syntax. -/
theorem isName_of_root {name : String} (h : Primitive.isName name = true) : name ≠ "fn" ∧ name ≠ "mut" := by
  have hall : ∀ n ∈ Primitive.names, n ≠ "fn" ∧ n ≠ "mut" := by decide
  exact hall name (List.contains_iff_mem.mp h)

/-- No type is read from what delimits one. -/
theorem read?_of_delimits {rest : List Token} (h : Delimits rest) : read? rest = none := by
  cases rest with
  | nil => exact read?_nil
  | cons tok rest => exact read?_of_startsTy (Token.startsTy_of_endsTy (h tok rfl)) rest

/-- Of the types that can be written, only one called `mut` starts with that word. -/
theorem Spellable.startsWith_mut {t : Ty} (h : t.Spellable) (rest : List Token) :
    startsWith "mut" (t.tokens ++ rest) = t.isCalled "mut" := by
  cases t with
  | prim name =>
    -- no primitive type is called `mut`
    have hname := (isName_of_root (spellable_iff.mp h).1).2
    rw [tokens]
    by_cases hnever : name = "!"
    · rw [if_pos hnever]
      rfl
    · simp [if_neg hnever, startsWith, isCalled, hname]
  | tuple elems =>
    rw [tokens]
    split <;> rfl
  | named name regions args =>
    rw [tokens]
    split <;> rfl
  | fn params ret => cases ret <;> rw [tokens] <;> rfl
  | _ =>
    rw [tokens]
    rfl

/-- After `&`, nothing can be read from a type called `mut` without that word. -/
theorem read?_afterWord_mut {t : Ty} (h : t.isCalled "mut" = true) {rest : List Token}
    (hrest : Delimits rest) : read? (afterWord "mut" (t.tokens ++ rest)) = none := by
  cases t with
  | named name regions args =>
    obtain rfl : name = "mut" := by simpa [isCalled] using h
    rw [tokens]
    split
    · exact read?_of_delimits hrest
    · exact read?_of_startsTy rfl _
  | _ => cases h

/-- The region at the front of what follows `&`. -/
theorem region_front {region : Region} (h : region.isSpellable = true) {ts : List Token}
    (hts : ∀ name, ts.head? ≠ some (.region name)) :
    regionAt ((if region.isElided then [] else [.region region.name]) ++ ts) = region ∧
      afterRegion ((if region.isElided then [] else [.region region.name]) ++ ts) = ts := by
  by_cases helided : region.isElided = true
  · rw [if_pos helided, List.nil_append, Region.isElided_iff.mp helided]
    cases ts with
    | nil => exact ⟨rfl, rfl⟩
    | cons tok ts =>
      cases tok with
      | region name => exact absurd rfl (hts name)
      | _ => exact ⟨rfl, rfl⟩
  · simp only [Region.isSpellable, helided, Bool.false_or, Bool.and_eq_true] at h
    rw [if_neg helided]
    exact ⟨if_neg (by simpa using h.2), rfl⟩

/-- A printed type is read as `reread` says. -/
theorem Spellable.readsBack {t : Ty} (h : t.Spellable) : t.ReadsBack := by
  induction t with
  | prim name =>
    have hname : Primitive.isName name = true := (spellable_iff.mp h).1
    intro rest hrest
    rw [tokens, List.singleton_append, reread]
    by_cases hnever : name = "!"
    · subst hnever
      exact read?_never rest
    · rw [if_neg hnever, read?_name (isName_of_root hname).1 (hrest.head?_ne (.sym '<') rfl), ofName,
        if_pos hname]
      rfl
  | var id =>
    intro rest hrest
    rw [tokens, List.singleton_append, read?_var, String.toList_ofList, readUInt64?_decimal]
    rfl
  | tuple elems ih =>
    have helems : ∀ t ∈ elems, t.ReadsBack := fun t ht => ih t ht ((spellable_iff.mp h).2 t ht)
    intro rest hrest
    rw [tokens, tokensList_eq_map, reread]
    rcases elems with _ | ⟨t, _ | ⟨u, ts⟩⟩
    · show read? (.sym '(' :: .sym ')' :: rest) = _
      rw [read?_paren, readList?_close]
      rfl
    · have ht : t.ReadsBack := helems t (by simp)
      simp only [List.map_cons, List.map_nil, List.cons_append, List.append_assoc, List.nil_append]
      rw [read?_paren, readList?_tokens rfl ht (delimits_cons rfl _), readMore?, readList?_close, rereadList]
      cases t.reread <;> rfl
    · have hlist := readList?_commaSep helems rest
      simp only [List.map_cons, List.cons_append, List.append_assoc, List.nil_append] at hlist ⊢
      rw [read?_paren, hlist]
      simp only [rereadList]
      cases t.reread <;> cases u.reread <;> cases rereadList ts <;> rfl
  | array elem size ih =>
    have helem := ih ((spellable_iff.mp h).2 elem (by simp [children]))
    intro rest hrest
    rw [tokens, reread]
    simp only [List.cons_append, List.append_assoc, List.nil_append]
    rw [read?_array, helem _ (delimits_cons rfl _)]
    cases elem.reread with
    | none => rfl
    | some elem => simp [readSize?, readUInt64?_decimal]
  | ref region isMut inner ih =>
    have hregion : region.isSpellable = true := (spellable_iff.mp h).1
    have hinner : inner.Spellable := (spellable_iff.mp h).2 inner (by simp [children])
    intro rest hrest
    rw [tokens, reread]
    simp only [List.cons_append, List.append_assoc]
    rw [read?_ref]
    -- the tokens after the region
    generalize hafter : (if isMut then [.ident "mut"] else []) ++ (inner.tokens ++ rest) = after
    have hnoregion : ∀ name, after.head? ≠ some (.region name) := by
      intro name
      rw [← hafter]
      cases isMut
      · exact head?_tokens_ne inner rest rfl
      · rintro ⟨⟩
    obtain ⟨hat, hrest'⟩ := region_front hregion hnoregion
    rw [hat, hrest', ← hafter]
    cases isMut with
    | true =>
      show (read? (inner.tokens ++ rest)).map (fun p => (Ty.ref region true p.1, p.2)) = _
      rw [ih hinner rest hrest]
      cases inner.reread <;> rfl
    | false =>
      rw [if_neg Bool.false_ne_true, List.nil_append, hinner.startsWith_mut rest]
      by_cases hmut : inner.isCalled "mut" = true
      · rw [read?_afterWord_mut hmut hrest]
        simp [hmut]
      · rw [afterWord, hinner.startsWith_mut rest, if_neg hmut, ih hinner rest hrest]
        simp [hmut, Function.comp_def]
  | ptr isMut inner ih =>
    have hinner := ih ((spellable_iff.mp h).2 inner (by simp [children]))
    intro rest hrest
    rw [tokens, List.cons_append, List.cons_append, read?_ptr, reread]
    cases isMut <;> simp [startsWith, hinner rest hrest, Function.comp_def]
  | fn params ret ih ihret =>
    obtain ⟨hsome, hbelow⟩ := spellable_iff.mp h
    obtain ⟨ret, rfl⟩ := Option.isSome_iff_exists.mp hsome
    have hparams : ∀ t ∈ params, t.ReadsBack := fun t ht =>
      ih t ht (hbelow t (by simp [children, ht]))
    have hret := ihret ret rfl (hbelow ret (by simp [children]))
    intro rest hrest
    rw [tokens, tokensList_eq_map, reread]
    simp only [List.cons_append, List.append_assoc]
    rw [read?_fn, expect?_self, Option.bind_some, readList?_commaSep hparams]
    have hafter : readRet? ((if ret.isUnit then [] else .arrow :: ret.tokens) ++ rest) =
        ret.reread.map (·, rest) := by
      by_cases hunit : ret.isUnit = true
      · obtain rfl := isUnit_iff.mp hunit
        exact readRet?_eq (hrest.head?_ne .arrow rfl)
      · rw [if_neg hunit]
        exact hret rest hrest
    cases rereadList params with
    | none => rfl
    | some params =>
      simp only [Option.map_some, Option.bind_some, hafter]
      cases ret.reread <;> rfl
  | named name regions args ih =>
    obtain ⟨hroot, hbelow⟩ := spellable_iff.mp h
    simp only [rootSpellable, Bool.and_eq_true] at hroot
    have hfn : name ≠ "fn" := by simpa using hroot.1.2
    have hargs : ∀ t ∈ args, t.ReadsBack := fun t ht => ih t ht (hbelow t ht)
    intro rest hrest
    by_cases hbare : regions = [] ∧ args = []
    · obtain ⟨rfl, rfl⟩ := hbare
      exact read?_name hfn (hrest.head?_ne (.sym '<') rfl)
    · have hsome : regions ≠ [] ∨ args ≠ [] := not_and_or.mp hbare
      rw [tokens_applied hsome, reread_applied hsome]
      simp only [List.cons_append, List.append_assoc, List.nil_append]
      rw [read?_applied hfn, readArgs?_parts hroot.2 hargs hsome]
      cases rereadList args <;> rfl

end Ty

end Generics
