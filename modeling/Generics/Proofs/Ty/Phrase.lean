import Generics.Proofs.Ty.Extent

/-!
# The grammar of types

A written type as a tree, whose nodes are the rules of the grammar. The tree keeps what the type does not:
parentheses around a type, commas before a closing bracket, how numbers and regions are written. Its tokens
and the type that it stands for are functions of the tree.

A region is a phrase only among the arguments of a name.

## Main results

* `Phrase.IsType`: the trees that the grammar allows;
* `Phrase.IsType.readable`: the tokens of such a tree are read as its type, whatever delimits them.
-/

namespace Generics

namespace Token

/-- The tokens of a list with a comma between each two parts, and one after the last if `comma` says so. -/
def listed (parts : List (List Token)) (comma : Bool) : List Token :=
  commaSep parts ++ if comma then [.sym ','] else []

theorem listed_false (parts : List (List Token)) : listed parts false = commaSep parts :=
  List.append_nil _

/-- What follows the first part of a list. -/
def listedMore (parts : List (List Token)) (comma : Bool) : List Token :=
  parts.flatMap (.sym ',' :: ·) ++ if comma then [.sym ','] else []

/-- A list is its first part and the rest. -/
theorem listed_cons (part : List Token) (parts : List (List Token)) (comma : Bool) :
    listed (part :: parts) comma = part ++ listedMore parts comma := by
  rw [listed, commaSep_cons, List.append_assoc]
  rfl

/-- The rest of a list starts with a comma. -/
theorem listedMore_cons (part : List Token) (parts : List (List Token)) (comma : Bool) :
    listedMore (part :: parts) comma = .sym ',' :: part ++ listedMore parts comma := by
  simp [listedMore]

/-- The next part or the end of a list delimits the part before it. -/
theorem delimits_listedMore (parts : List (List Token)) (comma : Bool) (close : Char)
    (hclose : (sym close).endsTy = true) (rest : List Token) :
    Delimits (listedMore parts comma ++ .sym close :: rest) := by
  cases parts with
  | nil =>
    cases comma with
    | false => exact delimits_cons hclose rest
    | true => exact delimits_cons rfl _
  | cons part parts => exact delimits_cons rfl _

end Token

/-- A written type, or a region among the arguments of a name. -/
inductive Phrase where
  /-- A variable, by the digits after its question mark. -/
  | var (digits : String)
  | never
  | regionArg (name : String)
  /-- A name without arguments. -/
  | bare (name : String)
  /-- A name with a list of arguments. In every list, `comma` says whether one stands before the closing
  bracket. -/
  | applied (name : String) (args : List Phrase) (comma : Bool)
  | ref (region : Option String) (isMut : Bool) (inner : Phrase)
  | ptr (isMut : Bool) (inner : Phrase)
  /-- A list in parentheses. -/
  | group (elems : List Phrase) (comma : Bool)
  | array (elem : Phrase) (size : String)
  | fn (params : List Phrase) (comma : Bool) (ret : Option Phrase)

namespace Phrase

open Text
open Token (Delimits listed listedMore listed_cons listedMore_cons delimits_listedMore)

/-- The region of a reference, if it is written. -/
def regionTokens (region : Option String) : List Token := region.toList.map .region

/-- The word that makes a reference mutable. -/
def mutTokens (isMut : Bool) : List Token := if isMut then [.ident "mut"] else []

mutual

/-- The tokens of the phrase. -/
def tokens : Phrase → List Token
  | .var digits => [.var digits]
  | .never => [.sym '!']
  | .regionArg name => [.region name]
  | .bare name => [.ident name]
  | .applied name args comma =>
    .ident name :: .sym '<' :: listed (tokensList args) comma ++ [.sym '>']
  | .ref region isMut inner => .sym '&' :: regionTokens region ++ mutTokens isMut ++ inner.tokens
  | .ptr isMut inner => .sym '*' :: .ident (if isMut then "mut" else "const") :: inner.tokens
  | .group elems comma => .sym '(' :: listed (tokensList elems) comma ++ [.sym ')']
  | .array elem size => .sym '[' :: elem.tokens ++ [.sym ';', .number size, .sym ']']
  | .fn params comma none =>
    .ident "fn" :: .sym '(' :: listed (tokensList params) comma ++ [.sym ')']
  | .fn params comma (some ret) =>
    .ident "fn" :: .sym '(' :: listed (tokensList params) comma ++ .sym ')' :: .arrow :: ret.tokens

/-- The tokens of each phrase of a list. -/
def tokensList : List Phrase → List (List Token)
  | [] => []
  | p :: ps => p.tokens :: tokensList ps

end

/-- The region that the phrase is. -/
def region? : Phrase → Option Region
  | .regionArg name => some (Ty.regionOf name)
  | _ => none

/-- The number that the digits write. -/
def numeral (digits : String) : UInt64 := UInt64.ofNat (Nat.ofDigitChars 10 digits.toList 0)

mutual

/-- The type that the phrase stands for. In parentheses, only one type without a comma is no tuple. -/
def type : Phrase → Ty
  | .var digits => .var (numeral digits)
  | .never => .never
  -- a region by itself is no type
  | .regionArg _ => .unit
  | .bare name => if Primitive.isName name then .prim name else .named name [] []
  | .applied name args _ => .named name (args.filterMap region?) (argTypes args)
  | .ref region isMut inner => .ref ((region.map Ty.regionOf).getD .elided) isMut inner.type
  | .ptr isMut inner => .ptr isMut inner.type
  | .group [p] false => p.type
  | .group elems _ => .tuple (typeList elems)
  | .array elem size => .array elem.type (numeral size)
  | .fn params _ none => .fn (typeList params) (some .unit)
  | .fn params _ (some ret) => .fn (typeList params) (some ret.type)

/-- The types that the phrases of a list stand for. -/
def typeList : List Phrase → List Ty
  | [] => []
  | p :: ps => p.type :: typeList ps

/-- The types among the arguments of a name. -/
def argTypes : List Phrase → List Ty
  | [] => []
  | p :: ps => if p.region?.isSome then argTypes ps else p.type :: argTypes ps

end

@[simp] theorem tokensList_eq_map (ps : List Phrase) : tokensList ps = ps.map tokens := by
  induction ps with
  | nil => rfl
  | cons p ps ih => simp [tokensList, ih]

@[simp] theorem typeList_eq_map (ps : List Phrase) : typeList ps = ps.map type := by
  induction ps with
  | nil => rfl
  | cons p ps ih => simp [typeList, ih]

/-- What is in parentheses is grouped. -/
theorem type_group (elems : List Phrase) (comma : Bool) :
    (group elems comma).type = Ty.grouped (elems.map type, comma) := by
  rcases elems with _ | ⟨p, _ | ⟨q, ps⟩⟩
  · rfl
  · cases comma <;> rfl
  · rw [type, typeList_eq_map]
    · rfl
    · simp

/-- The tokens of a function type. -/
theorem tokens_fn (params : List Phrase) (comma : Bool) (ret : Option Phrase) :
    (fn params comma ret).tokens =
      .ident "fn" :: .sym '(' :: (listed (params.map tokens) comma ++
        .sym ')' :: ret.elim [] fun p => .arrow :: p.tokens) := by
  cases ret <;> simp [tokens]

/-- The digits write a number below `2 ^ 64`, in the digits `0` to `9`. -/
def IsNumeral (digits : String) : Prop :=
  digits.toList ≠ [] ∧ digits.toList.all Char.isDigit = true ∧
    Nat.ofDigitChars 10 digits.toList 0 < UInt64.size

/-- The phrase follows the grammar of types. The word `fn` is no name, after `&` and its region the word
`mut` does not start a type, and a comma before a closing bracket has something in front of it. -/
inductive IsType : Phrase → Prop
  | var {digits : String} (hid : IsNumeral digits) : IsType (.var digits)
  | never : IsType .never
  | bare {name : String} (hfn : name ≠ "fn") : IsType (.bare name)
  | applied {name : String} {args : List Phrase} {comma : Bool} (hfn : name ≠ "fn")
      (hargs : ∀ p ∈ args, p.region? = none → IsType p) (hcomma : comma = true → args ≠ []) :
      IsType (.applied name args comma)
  | ref {region : Option String} {isMut : Bool} {inner : Phrase}
      (hmut : isMut = false → inner.tokens.head? ≠ some (.ident "mut")) (hinner : IsType inner) :
      IsType (.ref region isMut inner)
  | ptr {isMut : Bool} {inner : Phrase} (hinner : IsType inner) : IsType (.ptr isMut inner)
  | group {elems : List Phrase} {comma : Bool} (helems : ∀ p ∈ elems, IsType p)
      (hcomma : comma = true → elems ≠ []) : IsType (.group elems comma)
  | array {elem : Phrase} {size : String} (helem : IsType elem) (hsize : IsNumeral size) :
      IsType (.array elem size)
  | fn {params : List Phrase} {comma : Bool} {ret : Option Phrase} (hparams : ∀ p ∈ params, IsType p)
      (hcomma : comma = true → params ≠ []) (hret : ∀ p, ret = some p → IsType p) :
      IsType (.fn params comma ret)

/-- A type is no region. -/
theorem IsType.region?_eq_none {p : Phrase} (h : p.IsType) : p.region? = none := by
  cases h <;> rfl

/-! ## Phrases are read -/

/-- A number is read from its digits. -/
theorem readUInt64?_eq_some_iff {digits : String} {n : UInt64} :
    readUInt64? digits.toList = some n ↔ IsNumeral digits ∧ numeral digits = n := by
  unfold readUInt64? readNat? IsNumeral numeral
  by_cases hdigits : digits.toList ≠ [] ∧ digits.toList.all Char.isDigit = true
  · simp [hdigits]
  · rw [if_neg hdigits]
    exact iff_of_false nofun fun h => hdigits ⟨h.1.1, h.1.2.1⟩

/-- The tokens of the phrase are read as its type, whatever delimits them. -/
def Readable (p : Phrase) : Prop :=
  ∀ rest, Delimits rest → Ty.read? (p.tokens ++ rest) = some (p.type, rest)

/-- A phrase does not start with a token that starts no type. -/
theorem Readable.head?_ne {p : Phrase} (h : p.Readable) {tok : Token} (htok : tok.startsTy = false)
    {rest : List Token} (hrest : Delimits rest) : (p.tokens ++ rest).head? ≠ some tok :=
  Ty.head?_ne_of_read? (h rest hrest) htok

/-- A phrase has tokens. -/
theorem Readable.tokens_ne_nil {p : Phrase} (h : p.Readable) : p.tokens ≠ [] := by
  intro hnil
  have hread := h [] Token.delimits_nil
  rw [hnil, List.nil_append, Ty.read?_nil] at hread
  cases hread

/-- A phrase is read as the first of a list. -/
theorem Readable.readList?_append {p : Phrase} (h : p.Readable) {more : List Token}
    (hmore : Delimits more) :
    Ty.readList? ')' (p.tokens ++ more) =
      (Ty.readMore? ')' more).map fun m => ((p.type :: m.1.1, m.1.2), m.2) := by
  rw [Ty.readList?_eq (h.head?_ne rfl hmore), h more hmore]
  rfl

/-- The phrases after the first one in parentheses. -/
theorem readMore?_listedMore {ps : List Phrase} (h : ∀ p ∈ ps, p.Readable) (comma : Bool)
    (rest : List Token) :
    Ty.readMore? ')' (listedMore (ps.map tokens) comma ++ .sym ')' :: rest) =
      some ((ps.map type, comma), rest) := by
  induction ps with
  | nil =>
    cases comma with
    | false => exact Ty.readMore?_close (by decide) rest
    | true =>
      show (Ty.readList? ')' (.sym ')' :: rest)).map _ = _
      rw [Ty.readList?_close]
      rfl
  | cons p ps ih =>
    obtain ⟨hp, hps⟩ := List.forall_mem_cons.mp h
    have hmore := delimits_listedMore (ps.map tokens) comma ')' rfl rest
    rw [List.map_cons, listedMore_cons, List.append_assoc, List.cons_append, Ty.readMore?,
      hp.readList?_append hmore, ih hps]
    rfl

/-- The phrases of a list in parentheses. -/
theorem readList?_listed {ps : List Phrase} (h : ∀ p ∈ ps, p.Readable) {comma : Bool}
    (hcomma : comma = true → ps ≠ []) (rest : List Token) :
    Ty.readList? ')' (listed (ps.map tokens) comma ++ .sym ')' :: rest) =
      some ((ps.map type, comma), rest) := by
  cases ps with
  | nil =>
    obtain rfl : comma = false := by simpa using hcomma
    exact Ty.readList?_close ')' rest
  | cons p ps =>
    obtain ⟨hp, hps⟩ := List.forall_mem_cons.mp h
    have hmore := delimits_listedMore (ps.map tokens) comma ')' rfl rest
    rw [List.map_cons, listed_cons, List.append_assoc, hp.readList?_append hmore,
      readMore?_listedMore hps]
    rfl

/-- One argument of a name in front of the others. -/
theorem readArgs?_append {p : Phrase} (h : p.region? = none → p.Readable) {more : List Token}
    (hmore : Delimits more) {ps : List Phrase} {rest : List Token}
    (hargs : Ty.readMoreArgs? more = some ((ps.filterMap region?, argTypes ps), rest)) :
    Ty.readArgs? (p.tokens ++ more) =
      some (((p :: ps).filterMap region?, argTypes (p :: ps)), rest) := by
  by_cases hregion : p.region? = none
  · have hp := h hregion
    rw [Ty.readArgs?_eq (hp.head?_ne rfl hmore) (fun _ => hp.head?_ne rfl hmore), hp more hmore,
      Option.bind_some, hargs, List.filterMap_cons_none hregion, argTypes, hregion]
    rfl
  · cases p with
    | regionArg name =>
      show Ty.readArgs? (.region name :: more) = _
      rw [Ty.readArgs?_region, hargs]
      rfl
    | _ => exact absurd rfl hregion

/-- The arguments of a name after the first one. -/
theorem readMoreArgs?_listedMore {ps : List Phrase} (h : ∀ p ∈ ps, p.region? = none → p.Readable)
    (comma : Bool) (rest : List Token) :
    Ty.readMoreArgs? (listedMore (ps.map tokens) comma ++ .sym '>' :: rest) =
      some ((ps.filterMap region?, argTypes ps), rest) := by
  induction ps with
  | nil =>
    cases comma with
    | false => rfl
    | true => exact Ty.readArgs?_close rest
  | cons p ps ih =>
    obtain ⟨hp, hps⟩ := List.forall_mem_cons.mp h
    have hmore := delimits_listedMore (ps.map tokens) comma '>' rfl rest
    rw [List.map_cons, listedMore_cons, List.append_assoc, List.cons_append, Ty.readMoreArgs?_comma]
    exact readArgs?_append hp hmore (ih hps)

/-- The arguments of a name. -/
theorem readArgs?_listed {ps : List Phrase} (h : ∀ p ∈ ps, p.region? = none → p.Readable) {comma : Bool}
    (hcomma : comma = true → ps ≠ []) (rest : List Token) :
    Ty.readArgs? (listed (ps.map tokens) comma ++ .sym '>' :: rest) =
      some ((ps.filterMap region?, argTypes ps), rest) := by
  cases ps with
  | nil =>
    obtain rfl : comma = false := by simpa using hcomma
    exact Ty.readArgs?_close rest
  | cons p ps =>
    obtain ⟨hp, hps⟩ := List.forall_mem_cons.mp h
    have hmore := delimits_listedMore (ps.map tokens) comma '>' rfl rest
    rw [List.map_cons, listed_cons, List.append_assoc]
    exact readArgs?_append hp hmore (readMoreArgs?_listedMore hps comma rest)

/-- The word `mut` is found in front if it is there. -/
theorem mut_front {isMut : Bool} {ts : List Token}
    (hmut : isMut = false → ts.head? ≠ some (.ident "mut")) :
    Ty.startsWith "mut" (mutTokens isMut ++ ts) = isMut ∧
      Ty.afterWord "mut" (mutTokens isMut ++ ts) = ts := by
  cases isMut with
  | true => exact ⟨rfl, rfl⟩
  | false =>
    have hword : Ty.startsWith "mut" ts = false := by
      rw [Bool.eq_false_iff]
      intro hstarts
      obtain ⟨ts', rfl⟩ := Ty.exists_of_startsWith hstarts
      exact hmut rfl rfl
    exact ⟨hword, if_neg (Bool.eq_false_iff.mp hword)⟩

/-- A region is found in front if it is there. -/
theorem region_front (region : Option String) {ts : List Token}
    (hregion : ∀ name, ts.head? ≠ some (.region name)) :
    Ty.regionAt (regionTokens region ++ ts) = (region.map Ty.regionOf).getD .elided ∧
      Ty.afterRegion (regionTokens region ++ ts) = ts := by
  cases region with
  | some name => exact ⟨rfl, rfl⟩
  | none =>
    cases ts with
    | nil => exact ⟨rfl, rfl⟩
    | cons tok ts =>
      cases tok with
      | region name => exact absurd rfl (hregion name)
      | _ => exact ⟨rfl, rfl⟩

/-- What is read of a reference before the type that it points to. -/
theorem Readable.ref_front {inner : Phrase} (h : inner.Readable) (region : Option String) {isMut : Bool}
    (hmut : isMut = false → inner.tokens.head? ≠ some (.ident "mut")) {rest : List Token}
    (hrest : Delimits rest) :
    (Ty.regionAt (regionTokens region ++ (mutTokens isMut ++ (inner.tokens ++ rest))) =
          (region.map Ty.regionOf).getD .elided ∧
        Ty.afterRegion (regionTokens region ++ (mutTokens isMut ++ (inner.tokens ++ rest))) =
          mutTokens isMut ++ (inner.tokens ++ rest)) ∧
      Ty.startsWith "mut" (mutTokens isMut ++ (inner.tokens ++ rest)) = isMut ∧
      Ty.afterWord "mut" (mutTokens isMut ++ (inner.tokens ++ rest)) = inner.tokens ++ rest := by
  refine ⟨region_front region fun name => ?_, mut_front ?_⟩
  · -- neither the word `mut` nor a type starts with a region
    cases isMut with
    | true => exact nofun
    | false => exact h.head?_ne rfl hrest
  · rwa [List.head?_append_of_ne_nil _ h.tokens_ne_nil]

/-- The tokens of a phrase are read as its type. -/
theorem IsType.readable {p : Phrase} (h : p.IsType) : p.Readable := by
  induction h with
  | @var digits hid =>
    intro rest hrest
    rw [tokens, type, List.singleton_append, Ty.read?_var, readUInt64?_eq_some_iff.mpr ⟨hid, rfl⟩]
    rfl
  | never => exact fun rest _ => Ty.read?_never rest
  | bare hfn => exact fun rest hrest => Ty.read?_name hfn (hrest.head?_ne (.sym '<') rfl)
  | @applied name args comma hfn hargs hcomma ih =>
    intro rest hrest
    have hread := readArgs?_listed ih hcomma rest
    rw [tokens, type, tokensList_eq_map]
    simp only [List.cons_append, List.append_assoc, List.nil_append]
    rw [Ty.read?_applied hfn, hread]
    rfl
  | @ref region isMut inner hmut hinner ih =>
    intro rest hrest
    obtain ⟨⟨hregion, hafterRegion⟩, hword, hafterWord⟩ := ih.ref_front region hmut hrest
    rw [tokens, type]
    simp only [List.cons_append, List.append_assoc]
    rw [Ty.read?_ref, hregion, hafterRegion, hword, hafterWord, ih rest hrest]
    rfl
  | @ptr isMut inner hinner ih =>
    intro rest hrest
    rw [tokens, type, List.cons_append, List.cons_append, Ty.read?_ptr]
    cases isMut <;> simp [Ty.startsWith, ih rest hrest]
  | @group elems comma helems hcomma ih =>
    intro rest hrest
    have hread := readList?_listed ih hcomma rest
    rw [tokens, type_group, tokensList_eq_map]
    simp only [List.cons_append, List.append_assoc, List.nil_append]
    rw [Ty.read?_paren, hread]
    rfl
  | @array elem size helem hsize ih =>
    intro rest hrest
    have hnumber := readUInt64?_eq_some_iff.mpr ⟨hsize, rfl⟩
    rw [tokens, type]
    simp only [List.cons_append, List.append_assoc, List.nil_append]
    -- the semicolon delimits the element
    rw [Ty.read?_array, ih _ (Token.delimits_cons rfl _)]
    simp [Ty.readSize?, hnumber]
  | @fn params comma ret hparams hcomma hret ih ihret =>
    intro rest hrest
    have hread := readList?_listed ih hcomma
    cases ret with
    | none =>
      -- no arrow follows, since nothing that delimits a type starts with one
      rw [tokens, type, tokensList_eq_map, typeList_eq_map]
      simp only [List.cons_append, List.append_assoc, List.nil_append]
      rw [Ty.read?_fn, Ty.expect?_self, Option.bind_some, hread, Option.bind_some,
        Ty.readRet?_eq (hrest.head?_ne .arrow rfl)]
      rfl
    | some ret =>
      rw [tokens, type, tokensList_eq_map, typeList_eq_map]
      simp only [List.cons_append, List.append_assoc]
      rw [Ty.read?_fn, Ty.expect?_self, Option.bind_some, hread, Option.bind_some, Ty.readRet?,
        ihret ret rfl rest hrest]
      rfl

/-- A text with the tokens of a phrase is read as its type. -/
theorem IsType.parse_eq {p : Phrase} (h : p.IsType) {text : String}
    (hscan : Token.scan text.toList = .ok p.tokens) : Ty.parse text = .ok p.type := by
  have hread := h.readable [] Token.delimits_nil
  rw [List.append_nil] at hread
  exact Ty.parse_eq_ok_iff.mpr ⟨p.tokens, hscan, hread⟩

end Phrase

end Generics
