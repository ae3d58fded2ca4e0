import Generics.Proofs.Alias.Transparent
import Generics.Proofs.Alias.Written

/-!
# Aliases in parentheses

A text that is a use of an alias is expanded as it is written. In parentheses the same text is first read
as a type, and the alias gets its arguments as they are printed, regions first. Both ways lead to the same
type if the arguments are written as they are printed, up to blanks, commas and parentheses. The targets
that come out on the two ways differ in how types in parentheses are written. They are expanded alike
down to the last level, because each level splits, fills in and reads them alike.

## Main results

* `AliasTable.enter_congr`: targets that differ only in how types in parentheses are written are expanded
  to the same type;
* `AliasTable.expandWith_regular`: a regular use of an alias is expanded like the type that it is read as;
* `Aliases.expand_parenthesized`: a text and the same text in parentheses are expanded to the same type.
-/

namespace Generics

open Text

/-- The alias is called by a name that is not that of a built-in type, and the brackets of its target are
in order if arguments are put into it. -/
def TypeAlias.isRegular (a : TypeAlias) : Bool :=
  Token.isIdent a.name.toList && !Primitive.isName a.name &&
    (!a.isGeneric || Alias.isOrderly a.target.toList)

namespace AliasTable

/-- All aliases of the table are regular. -/
def Regular (t : AliasTable) : Prop := ∀ a ∈ t.aliases, a.isRegular = true

instance (t : AliasTable) : Decidable t.Regular := inferInstanceAs (Decidable (∀ a ∈ t.aliases, _))

variable {t : AliasTable}

theorem Regular.of_find? (ht : t.Regular) {name : String} {a : TypeAlias} (h : t.find? name = some a) :
    a.name = name ∧ Token.isIdent name.toList = true ∧ Primitive.isName name = false ∧
      (a.isGeneric = true → Alias.isOrderly a.target.toList = true) := by
  have hname : a.name = name := by simpa using List.find?_some h
  have hregular := ht a (List.mem_of_find?_eq_some h)
  simp only [TypeAlias.isRegular, Bool.and_eq_true, Bool.not_eq_true', Bool.or_eq_true, hname] at hregular
  obtain ⟨⟨hident, hprim⟩, hgeneric⟩ := hregular
  refine ⟨hname, hident, hprim, fun hsome => hgeneric.resolve_left ?_⟩
  simp [hsome]

/-- A text with parentheses is not the name of an alias. -/
theorem Regular.find?_eq_none (ht : t.Regular) {text : String} (h : '(' ∈ text.toList) :
    t.find? text = none := by
  cases hfind : t.find? text with
  | none => rfl
  | some a =>
    have hident := (ht.of_find? hfind).2.1
    exact absurd h (Alias.not_mem_of_all_isPlain (Token.all_isPlain_of_isIdent hident))

/-! ## One level of expansion -/

/-- Orderly targets that differ only in how types in parentheses are written are entered alike. -/
def Respects (enter : (name target : String) → Except Error Ty) : Prop :=
  ∀ name target target', Ty.Respelled target.toList target'.toList →
    Alias.isOrderly target.toList = true → (enter name target).toOption = (enter name target').toOption

section Level

variable {enter : (name target : String) → Except Error Ty} (henter : Respects enter) (ht : t.Regular)

include henter ht

/-- Arguments that are put in alike lead to the same type. -/
theorem application_congr {name : String} {args args' : List String}
    (hargs : ∀ arg ∈ args, depthAfter? false 1 none arg.toList = some 1)
    (h : List.Forall₂ Alias.Alike args args') :
    (t.application enter name args).toOption = (t.application enter name args').toOption := by
  unfold application
  cases hfind : t.find? name with
  | none => rfl
  | some a =>
    by_cases hlen : args.length ≠ a.params.length
    · simp only [if_pos hlen, if_pos (h.length_eq ▸ hlen)]
      rfl
    · simp only [if_neg hlen, if_neg (h.length_eq ▸ hlen)]
      cases h with
      -- the target is entered as it is
      | nil => rfl
      | cons harg hrest =>
        have hgeneric : a.isGeneric = true := by
          rw [TypeAlias.isGeneric, Bool.not_eq_true', List.isEmpty_eq_false_iff]
          rintro hnil
          simp [hnil] at hlen
        have htarget := (ht.of_find? hfind).2.2.2 hgeneric
        exact henter name _ _ (Alias.respelled_substitute (.cons harg hrest) a.target a.params)
          (Alias.isOrderly_substitute htarget hargs)

omit henter in
/-- A text that is no applied alias is expanded to the same type however types in parentheses are
written. -/
theorem expandUnapplied_congr {text text' : String} (h : Ty.Respelled text.toList text'.toList) :
    (t.expandUnapplied enter text).toOption = (t.expandUnapplied enter text').toOption := by
  by_cases heq : text = text'
  · rw [heq]
  -- texts that differ have parentheses, and are not names
  have hnone {a b : String} (hab : Ty.Respelled a.toList b.toList) (hne : a ≠ b) :
      t.find? a = none := by
    refine ht.find?_eq_none ?_
    by_contra hplain
    exact hne (String.toList_inj.mp (hab.eq_of_not_mem hplain).symm)
  have hparse {a b : String} (hab : Ty.Respelled a.toList b.toList) {ty : Ty}
      (hty : Ty.parse a = .ok ty) : Ty.parse b = .ok ty :=
    Ty.parse_eq_ok_iff.mpr (hab.denotes (Ty.parse_eq_ok_iff.mp hty))
  rw [expandUnapplied, expandUnapplied, hnone h heq, hnone h.symm (Ne.symm heq)]
  cases hleft : Ty.parse text with
  | ok ty =>
    rw [hparse h hleft]
    rfl
  | error e =>
    cases hright : Ty.parse text' with
    | ok ty => cases hleft.symm.trans (hparse h.symm hright)
    | error e' => rfl

/-- An orderly text is expanded to the same type however types in parentheses are written. -/
theorem expandWith_congr {text text' : String} (h : Ty.Respelled text.toList text'.toList)
    (horderly : Alias.isOrderly text.toList = true) :
    (t.expandWith enter text).toOption = (t.expandWith enter text').toOption := by
  have hunapplied : (t.expandUnapplied enter text).toOption =
      (t.expandUnapplied enter text').toOption := expandUnapplied_congr ht h
  unfold expandWith Alias.splitApplication
  cases hsplit : Alias.splitApplicationChars text.toList with
  | some p =>
    obtain ⟨head, args⟩ := p
    obtain ⟨args', hsplit', hargs⟩ := h.splitApplicationChars horderly hsplit
    rw [hsplit']
    simp only [Option.map_some]
    cases (t.find? (String.ofList head)).isSome with
    | false => exact hunapplied
    | true =>
      -- an applied alias: the arguments are orderly, and alike one by one
      refine application_congr henter ht ?_ ?_
      · intro arg harg
        obtain ⟨cs, hcs, rfl⟩ := List.mem_map.mp harg
        rw [String.toList_ofList]
        exact Alias.depthAfter?_of_splitApplicationChars horderly hsplit cs hcs
      · refine List.forall₂_map_left_iff.mpr (List.forall₂_map_right_iff.mpr (hargs.imp ?_))
        intro cs ds hcs
        refine Alias.alike_of_respelled ?_
        rwa [String.toList_ofList, String.toList_ofList]
  | none =>
    cases hsplit' : Alias.splitApplicationChars text'.toList with
    | none => exact hunapplied
    | some p =>
      -- if the other text is an application, so is this one
      obtain ⟨args, hback, -⟩ :=
        h.symm.splitApplicationChars (Alias.isOrderly_of_respelled h horderly) hsplit'
      cases hsplit.symm.trans hback

end Level

/-- However many levels are left, orderly targets that differ only in how types in parentheses are
written are expanded to the same type. -/
theorem enter_congr (ht : t.Regular) (left : Nat) (chain : List String) :
    Respects (t.enter left chain) := by
  -- each level makes the chain longer, so the level below is needed for all chains
  induction left generalizing chain with
  | zero => exact fun _ _ _ _ _ => rfl
  | succ left ih =>
    intro name target target' h horderly
    rw [enter, enter]
    exact expandWith_congr (ih _) ht h horderly

end AliasTable

/-! ## Uses of an alias -/

namespace AliasTable

variable {t : AliasTable} {enter : (name target : String) → Except Error Ty}

/-- The text is not an applied alias, or its arguments are regular. -/
def isRegularUse (t : AliasTable) (text : String) : Bool :=
  match Alias.splitApplication text with
  | some (head, args) => (t.find? head).isNone || Alias.areRegularArgs args
  | none => true

/-- An alias in a type is used by its name alone, or with its arguments as they are printed. -/
theorem expandNames_named {name : String} (h : (t.find? name).isSome = true) (regions : List Region)
    (args : List Ty) :
    (Ty.named name regions args).expandNames (t.nested enter) =
      if regions.isEmpty && args.isEmpty then t.bare enter name
      else t.application enter name (regions.map Region.name ++ args.map Ty.render) := by
  have hnone : (t.find? name).isNone = false := by
    rw [← Option.not_isSome, h]
    rfl
  rw [Ty.expandNames, nested, hnone]
  simp only [Bool.false_eq_true, if_false]
  split
  · cases t.bare enter name <;> rfl
  · cases t.application enter name (regions.map Region.name ++ args.map Ty.render) <;> rfl

/-- An alias with as many arguments as it has parameters. -/
theorem application_of_find? {name : String} {a : TypeAlias} (h : t.find? name = some a)
    (args : List String) (hlen : args.length = a.params.length) :
    t.application enter name args = enter name (a.instantiate args) := by
  rw [application, h]
  exact if_neg (not_not.mpr hlen)

theorem expandWith_of_split {text head : String} {args : List String}
    (h : Alias.splitApplication text = some (head, args)) (hhead : (t.find? head).isSome = true) :
    t.expandWith enter text = t.application enter head args := by
  rw [expandWith, h]
  exact if_pos hhead

/-- An empty list of arguments is as good as none. -/
theorem application_nil (name : String) :
    (t.application enter name []).toOption = (t.bare enter name).toOption := by
  unfold application bare
  cases t.find? name with
  | none => rfl
  | some a =>
    cases hparams : a.params with
    | nil => simp [hparams, TypeAlias.isGeneric, TypeAlias.instantiate]
    | cons param params => simp [hparams, TypeAlias.isGeneric, Except.toOption]

/-- An alias with regular arguments is expanded like the type that it is read as. -/
theorem application_regular (henter : Respects enter) (ht : t.Regular) {text head : String}
    {args : List String} {ty : Ty} (hparse : Ty.parse text = .ok ty)
    (hsplit : Alias.splitApplication text = some (head, args)) (hhead : (t.find? head).isSome = true)
    (hargs : Alias.areRegularArgs args = true) :
    (t.application enter head args).toOption = (ty.expandNames (t.nested enter)).toOption := by
  obtain ⟨a, ha⟩ := Option.isSome_iff_exists.mp hhead
  have hident := (ht.of_find? ha).2.1
  obtain ⟨names, written, types, rfl, hnames, htypes⟩ := Alias.exists_types_of_areRegularArgs hargs
  obtain ⟨⟨headChars, argChars⟩, hchars, heq⟩ := Option.map_eq_some_iff.mp hsplit
  obtain ⟨rfl, hargChars⟩ := Prod.mk.inj heq
  rw [String.toList_ofList] at hident
  have hregions : ∀ name ∈ names, Token.isRegion name.toList = true ∧ name ≠ "'_" := by
    intro name hname
    simpa [Alias.isRegionArg] using hnames name hname
  have hargs' : argChars = names.map String.toList ++ written.map String.toList := by
    rw [← List.map_append, ← hargChars, List.map_map]
    simp [Function.comp_def]
  have hdenotes : List.Forall₂ Ty.Denotes (written.map String.toList) types :=
    List.forall₂_map_left_iff.mpr (htypes.imp fun _ _ h => Ty.parse_eq_ok_iff.mp h.1)
  obtain rfl := Alias.eq_named_of_denotes (Ty.parse_eq_ok_iff.mp hparse) hchars hident hargs' hregions
    hdenotes
  have hprinted : List.Forall₂ Alias.Alike (names ++ written)
      ((names.map Region.mk).map Region.name ++ types.map Ty.render) := by
    refine List.rel_append ?_ (List.forall₂_map_right_iff.mpr (htypes.imp ?_))
    · rw [List.map_map]
      exact List.forall₂_map_right_iff.mpr (List.forall₂_same.mpr fun name _ => .refl _)
    · rintro arg u ⟨hu, hlegible, hpath⟩
      exact Alias.alike_render hu hlegible hpath
  have hdepth : ∀ arg ∈ names ++ written, depthAfter? false 1 none arg.toList = some 1 := by
    intro arg harg
    rcases List.mem_append.mp harg with hname | hwritten
    · exact depthAfter?_of_plain (Token.all_isPlain_of_isRegion (hregions arg hname).1) false 1 none
    · obtain ⟨i, hi, rfl⟩ := List.mem_iff_getElem.mp hwritten
      have hu := (htypes.get hi (htypes.length_eq ▸ hi)).1
      exact Ty.Denotes.depthAfter?_eq (Ty.parse_eq_ok_iff.mp hu) false
  -- from here on both are given the printed arguments
  rw [application_congr henter ht hdepth hprinted, expandNames_named hhead]
  split
  · rename_i hempty
    rw [Bool.and_eq_true, List.isEmpty_iff, List.isEmpty_iff] at hempty
    rw [hempty.1, hempty.2]
    exact application_nil _
  · rfl

/-- The bare name of an alias is read as a name. -/
theorem eq_named_of_find? (ht : t.Regular) {text : String} {a : TypeAlias}
    (hfind : t.find? text = some a) {ty : Ty} (hparse : Ty.parse text = .ok ty) :
    ty = .named text [] [] := by
  obtain ⟨-, hident, hprim, -⟩ := ht.of_find? hfind
  obtain ⟨toks, hscan, hread⟩ := Ty.parse_eq_ok_iff.mp hparse
  obtain rfl := Except.ok.inj ((Token.spells_ident text hident).scan.symm.trans hscan)
  by_cases hfn : text = "fn"
  · rw [hfn, Ty.read?_fn] at hread
    cases hread
  · rw [Ty.read?_name hfn (by simp)] at hread
    obtain ⟨rfl, -⟩ := Prod.mk.inj (Option.some.inj hread)
    rw [Ty.ofName, hprim]
    rfl

/-- A regular use of an alias is expanded like the type that it is read as. -/
theorem expandWith_regular (henter : Respects enter) (ht : t.Regular) {text : String} {ty : Ty}
    (hparse : Ty.parse text = .ok ty) (hregular : t.isRegularUse text = true) :
    (t.expandWith enter text).toOption = (ty.expandNames (t.nested enter)).toOption := by
  -- a text that is not split is the name of an alias, or parsed
  have hunapplied : (t.expandUnapplied enter text).toOption =
      (ty.expandNames (t.nested enter)).toOption := by
    rw [expandUnapplied]
    cases hfind : t.find? text with
    | none =>
      rw [hparse]
      rfl
    | some a =>
      have hbare := eq_named_of_find? ht hfind hparse
      rw [hbare, expandNames_named (by rw [hfind]; rfl)]
      rfl
  unfold expandWith
  unfold isRegularUse at hregular
  cases hsplit : Alias.splitApplication text with
  | none => exact hunapplied
  | some p =>
    obtain ⟨head, args⟩ := p
    rw [hsplit] at hregular
    cases hhead : (t.find? head).isSome with
    | false => simpa [hhead] using hunapplied
    | true =>
      have hargs : Alias.areRegularArgs args = true := by
        rw [Bool.or_eq_true, ← Option.not_isSome, hhead] at hregular
        exact hregular.resolve_left Bool.false_ne_true
      simpa [hhead] using application_regular henter ht hparse hsplit hhead hargs

/-- In parentheses a text is expanded like the type that it is read as. -/
theorem expandWith_group (ht : t.Regular) {text : String} {ty : Ty} (hparse : Ty.parse text = .ok ty) :
    t.expandWith enter ("(" ++ text ++ ")") = ty.expandNames (t.nested enter) := by
  have hchars : ("(" ++ text ++ ")").toList = '(' :: (text.toList ++ [')']) := by
    simp [String.toList_append]
  have hgroup : Ty.parse ("(" ++ text ++ ")") = .ok ty := by
    obtain ⟨toks, hscan, hread⟩ := Ty.parse_eq_ok_iff.mp hparse
    have hempty : Token.scan [] = .ok [] := by rw [Token.scan]
    have hgrouped := (Token.scan_group_eq_ok_iff hscan).mpr ⟨[], [], hempty, hempty, rfl⟩
    refine Ty.parse_eq_ok_iff.mpr ⟨.sym '(' :: (toks ++ [.sym ')']), ?_, ?_⟩
    · rw [hchars]
      exact hgrouped
    · rw [Ty.read?_paren, Ty.readList?_single hread]
      rfl
  have hfind : t.find? ("(" ++ text ++ ")") = none :=
    ht.find?_eq_none (by rw [hchars]; exact List.mem_cons_self)
  have hsplit : Alias.splitApplication ("(" ++ text ++ ")") = none := by
    rw [Alias.splitApplication, hchars, Option.map_eq_none_iff, Option.eq_none_iff_forall_ne_some]
    rintro ⟨head, args⟩ h
    obtain ⟨front, inside, hcs, -, rfl, hpath, -⟩ := Alias.splitApplicationChars_eq_some_iff.mp h
    -- no path begins with a parenthesis
    cases front with
    | nil => cases (List.cons.inj hcs).1
    | cons c front =>
      obtain ⟨rfl, -⟩ := List.cons.inj hcs
      exact Alias.not_mem_of_all_isPlain (Alias.all_isPlain_of_isPath_trimChars hpath)
        List.mem_cons_self
  rw [expandWith, hsplit]
  simp only [expandUnapplied, hfind, hgroup]
  rfl

end AliasTable

namespace Aliases

theorem trim_group (text : String) : trim ("(" ++ text ++ ")") = "(" ++ text ++ ")" := by
  have hopen : ¬isBlank '(' = true := by decide
  have hclose : ¬isBlank ')' = true := by decide
  have hchars : ("(" ++ text ++ ")").toList = '(' :: text.toList ++ [')'] := by
    simp [String.toList_append]
  rw [trim, ← String.toList_inj, String.toList_ofList, hchars]
  show (('(' :: text.toList ++ [')']).dropWhile isBlank).rdropWhile isBlank = _
  rw [List.cons_append, List.dropWhile_cons_of_neg hopen, ← List.cons_append,
    List.rdropWhile_concat_neg _ _ _ hclose]

/-- The answer to a text is the one that is worked out for it. -/
theorem ask_expand (maxDepth : Int) (events : List Event) (text : String) :
    ((run maxDepth events).aliases.ask (.expand text)).2 =
      (run maxDepth events).aliases.table.expand (trim text) := by
  obtain ⟨asked, -, hquery, hanswer⟩ := ask_run maxDepth events (.expand text)
  cases asked with
  | resolve name => cases hquery
  | resolveGeneric name args => cases hquery
  | expand text' =>
    rw [hanswer, ← AliasQuery.expand.inj hquery]
    rfl

/-- Whatever was declared and asked before, if all aliases are regular, then a text that can be read as a
type and the same text in parentheses are expanded to the same type, or to none. If the text is an
applied alias, its arguments must be regular. -/
theorem expand_parenthesized (maxDepth : Int) (events : List Event)
    (haliases : (run maxDepth events).aliases.table.Regular) {text : String} {ty : Ty}
    (hparse : Ty.parse text = .ok ty)
    (huse : (run maxDepth events).aliases.table.isRegularUse (trim text) = true) :
    ((run maxDepth events).aliases.ask (.expand text)).2.toOption =
      ((run maxDepth events).aliases.ask (.expand ("(" ++ text ++ ")"))).2.toOption := by
  have htrimmed : Ty.parse (trim text) = .ok ty :=
    Ty.parse_ofList_eq_ok_iff.mpr (Ty.denotes_trimChars.mpr (Ty.parse_eq_ok_iff.mp hparse))
  rw [ask_expand, ask_expand, trim_group, AliasTable.expand, AliasTable.expand,
    AliasTable.expandWith_group haliases hparse]
  exact AliasTable.expandWith_regular (AliasTable.enter_congr haliases _ []) haliases htrimmed huse

/-- The target of `Flag` is itself an applied alias. -/
theorem expand_parenthesized_of_nested :
    let aliases : List TypeAlias := [⟨"Pair", ["A", "B"], "(A, B)"⟩, ⟨"Flag", ["T"], "Pair<T, bool>"⟩]
    let use := run 4 (aliases.map .declare)
    let ty : Ty := .tuple [.prim "u8", .prim "bool"]
    use.aliases.table.Regular ∧ Ty.parse " Flag< u8 > " = .ok (.named "Flag" [] [.prim "u8"]) ∧
      use.aliases.table.isRegularUse (trim " Flag< u8 > ") = true ∧
      (use.aliases.ask (.expand " Flag< u8 > ")).2 = .ok ty ∧
      (use.aliases.ask (.expand "( Flag< u8 > )")).2.toOption = some ty := by
  intro aliases use ty
  let table : AliasTable := ⟨aliases, 4⟩
  have htable : use.aliases.table = table := by
    have huse : use = { aliases := ⟨table, []⟩ } := run_declare (by decide +kernel)
    rw [huse]
  have hregular : use.aliases.table.Regular := by
    rw [htable]
    decide +kernel
  have hparse : Ty.parse " Flag< u8 > " = .ok (.named "Flag" [] [.prim "u8"]) := by
    refine Ty.parse_eq_ok_iff.mpr
      ⟨[.ident "Flag", .sym '<', .ident "u8", .sym '>'], by decide +kernel, ?_⟩
    rw [Ty.read?_applied (by decide), Ty.readArgs?_name (by decide) (by decide)]
    rfl
  have hsplit : Alias.splitApplication (trim " Flag< u8 > ") = some ("Flag", ["u8"]) := by
    decide +kernel
  have hregularUse : use.aliases.table.isRegularUse (trim " Flag< u8 > ") = true := by
    have hu8 : (Ty.prim "u8").Canonical := by decide +kernel
    have harg : Alias.isTypeArg "u8" = true :=
      Alias.isTypeArg_iff.mpr ⟨.prim "u8", hu8.spellable.parse_render_of_legible hu8.legible, hu8.legible,
        fun _ => by decide +kernel⟩
    have hregion : Alias.isRegionArg "u8" = false := by decide +kernel
    rw [AliasTable.isRegularUse, hsplit]
    simp [Alias.areRegularArgs, hregion, harg]
  have hanswer : (use.aliases.ask (.expand " Flag< u8 > ")).2 = .ok ty := by
    have hty : ty.Canonical := by decide +kernel
    have hflag : table.find? "Flag" = some ⟨"Flag", ["T"], "Pair<T, bool>"⟩ := by decide
    have hpair : table.find? "Pair" = some ⟨"Pair", ["A", "B"], "(A, B)"⟩ := by decide
    have houter : TypeAlias.instantiate ⟨"Flag", ["T"], "Pair<T, bool>"⟩ ["u8"] = "Pair<u8, bool>" := by
      decide +kernel
    have hinner : TypeAlias.instantiate ⟨"Pair", ["A", "B"], "(A, B)"⟩ ["u8", "bool"] = ty.render := by
      decide +kernel
    have hsplit' : Alias.splitApplication "Pair<u8, bool>" = some ("Pair", ["u8", "bool"]) := by
      decide +kernel
    -- `Flag` is entered first and then `Pair`, whose instance is the type in print
    have hroom : table.room = 4 := rfl
    rw [ask_expand, htable, AliasTable.expand, hroom,
      AliasTable.expandWith_of_split hsplit (by rw [hflag]; rfl),
      AliasTable.application_of_find? hflag ["u8"] rfl, houter, AliasTable.enter,
      AliasTable.expandWith_of_split hsplit' (by rw [hpair]; rfl),
      AliasTable.application_of_find? hpair ["u8", "bool"] rfl, hinner, AliasTable.enter]
    exact AliasTable.expandWith_render hty (by decide +kernel) (by decide +kernel)
  refine ⟨hregular, hparse, hregularUse, hanswer, ?_⟩
  have hsame := expand_parenthesized 4 (aliases.map .declare) hregular hparse hregularUse
  exact hsame.symm.trans (congrArg Except.toOption hanswer)

/-- A comma after the last argument counts as one more argument, unless the text stands in parentheses. -/
theorem expand_parenthesized_ne_of_trailing_comma :
    let use := run 4 [.declare pairAlias]
    Ty.parse "Pair<i32, bool,>" = .ok (.named "Pair" [] [.prim "i32", .prim "bool"]) ∧
      (use.aliases.ask (.expand "Pair<i32, bool,>")).2 =
        .error (.typeMismatch "Pair<A, B>" "Pair<i32, bool, >" "generic alias arguments") ∧
      (use.aliases.ask (.expand "(Pair<i32, bool,>)")).2 = .ok (.tuple [.prim "i32", .prim "bool"]) := by
  intro use
  let table : AliasTable := ⟨[pairAlias], 4⟩
  have htable : use.aliases.table = table := by
    have huse : use = { aliases := ⟨table, []⟩ } := run_pairAlias
    rw [huse]
  have hfind : (table.find? "Pair").isSome = true := by decide
  have hparse : Ty.parse "Pair<i32, bool,>" = .ok (.named "Pair" [] [.prim "i32", .prim "bool"]) := by
    refine Ty.parse_eq_ok_iff.mpr ⟨[.ident "Pair", .sym '<', .ident "i32", .sym ',', .ident "bool",
      .sym ',', .sym '>'], by decide +kernel, ?_⟩
    rw [Ty.read?_applied (by decide), Ty.readArgs?_name (by decide) (by decide),
      Ty.readMoreArgs?_comma, Ty.readArgs?_name (by decide) (by decide), Ty.readMoreArgs?_comma,
      Ty.readArgs?_close]
    rfl
  refine ⟨hparse, ?_, ?_⟩
  · -- without parentheses the text is split at its commas
    have htrim : trim "Pair<i32, bool,>" = "Pair<i32, bool,>" := by decide +kernel
    have hsplit : Alias.splitApplication "Pair<i32, bool,>" = some ("Pair", ["i32", "bool", ""]) := by
      decide +kernel
    have hwritten : pairAlias.wrongArguments ["i32", "bool", ""] =
        .typeMismatch "Pair<A, B>" "Pair<i32, bool, >" "generic alias arguments" := by decide +kernel
    rw [ask_expand, htable, htrim, AliasTable.expand, AliasTable.expandWith_of_split hsplit hfind,
      ← hwritten]
    rfl
  · -- in parentheses the text is parsed, and the parser allows the comma
    have hregular : table.Regular := by decide +kernel
    have htrim : trim "(Pair<i32, bool,>)" = "(" ++ "Pair<i32, bool,>" ++ ")" :=
      trim_group "Pair<i32, bool,>"
    have hargs : [Ty.prim "i32", .prim "bool"].map Ty.render = ["i32", "bool"] := by decide +kernel
    rw [ask_expand, htable, htrim, AliasTable.expand, AliasTable.expandWith_group hregular hparse,
      AliasTable.expandNames_named hfind]
    simp only [hargs]
    exact resolveGeneric_pairAlias

end Aliases

end Generics
