import Generics.Proofs.Except
import Generics.Ty.Parser

/-!
# What the reader of types does

The reader keeps with each result that tokens were used up, and says in words what went wrong. Here
both are left out: `Ty.read?` is the type and the tokens after it, if a type can be read. Its equations,
one for each kind of token at the front, are all that is needed of the reader elsewhere.

## Main results

* `Ty.parse_eq_ok_iff`: a text stands for a type if the type is read from all of its tokens;
* `Ty.read?_fn`, `Ty.read?_name`, `Ty.read?_applied`, `Ty.read?_ref`, `Ty.read?_ptr`,
  `Ty.read?_paren`, `Ty.read?_array`: the equations for types;
* `Ty.readList?_eq`, `Ty.readArgs?_eq`: the equations for lists.
-/

namespace Generics

/-- The token can stand at the front of a type. -/
def Token.startsTy : Token → Bool
  | .ident _ | .var _ => true
  | .sym c => ['(', '[', '&', '*', '!'].contains c
  | .region _ | .number _ | .arrow => false

namespace Ty

open Text

/-- What was read and the tokens after it, if reading succeeded. -/
def readOf {α : Type} {ts : List Token} (p : Except Malformation (Parsed α ts)) :
    Option (α × List Token) :=
  p.toOption.map fun p => (p.value, p.rest)

/-- Reads one type. -/
def read? (ts : List Token) : Option (Ty × List Token) := readOf (parseTy ts)

/-- Reads types up to a closing bracket, and whether a comma stands before it. -/
def readList? (close : Char) (ts : List Token) : Option ((List Ty × Bool) × List Token) :=
  readOf (parseList close ts)

/-- Reads regions and types up to the closing angle bracket. -/
def readArgs? (ts : List Token) : Option ((List Region × List Ty) × List Token) :=
  readOf (parseArgs ts)

/-- The tokens after the punctuation `c`, which must come next. -/
def expect? (c : Char) : List Token → Option (List Token)
  | .sym d :: ts => if d = c then some ts else none
  | _ => none

/-- Reads the size of an array. -/
def readSize? : List Token → Option (UInt64 × List Token)
  | .number digits :: ts => (readUInt64? digits.toList).map (·, ts)
  | _ => none

/-- Reads the return type of a function, which is unit without an arrow. -/
def readRet? : List Token → Option (Ty × List Token)
  | .arrow :: ts => read? ts
  | ts => some (unit, ts)

/-- What stands in parentheses: a single type without a comma is that type. -/
def grouped : List Ty × Bool → Ty
  | ([elem], false) => elem
  | (elems, _) => .tuple elems

/-- Reads what comes after a type in a list. -/
def readMore? (close : Char) : List Token → Option ((List Ty × Bool) × List Token)
  | .sym ',' :: ts => (readList? close ts).map fun p => ((p.1.1, p.1.1.isEmpty || p.1.2), p.2)
  | ts => (expect? close ts).map (([], false), ·)

/-- Reads what comes after a region or a type in a list of arguments. -/
def readMoreArgs? : List Token → Option ((List Region × List Ty) × List Token)
  | .sym ',' :: ts => readArgs? ts
  | ts => (expect? '>' ts).map (([], []), ·)

/-- A function without an arrow returns unit. -/
theorem readRet?_eq {ts : List Token} (h : ts.head? ≠ some .arrow) :
    readRet? ts = some (unit, ts) := by
  unfold readRet?
  split
  · exact absurd rfl h
  · rfl

@[simp] theorem expect?_self (c : Char) (ts : List Token) : expect? c (.sym c :: ts) = some ts := by
  simp [expect?]

/-- Whether a symbol follows, without the reason why it does not. -/
theorem expect_toOption (c : Char) (ts : List Token) :
    (expect c ts).toOption.map Subtype.val = expect? c ts := by
  unfold expect
  cases ts with
  | nil => rfl
  | cons tok ts =>
    by_cases h : tok = .sym c
    · subst h
      simp [expect?, Except.toOption]
    · cases tok <;> simp_all [expect?, Except.toOption]

/-- Reading after another step. -/
theorem readOf_bind {α β : Type} {ts : List Token} (x : Except Malformation β)
    (f : β → Except Malformation (Parsed α ts)) :
    readOf (x >>= f) = x.toOption.bind fun b => readOf (f b) := by
  cases x <;> rfl

/-! ## Types -/

-- the equations of the reader are worked out once, before the proofs below ask for them
attribute [local simp] parseTy

@[simp] theorem read?_nil : read? [] = none := by
  unfold read?
  rw [parseTy]
  rfl

/-- Reading a numbered variable. -/
theorem read?_var (digits : String) (ts : List Token) :
    read? (.var digits :: ts) = (readUInt64? digits.toList).map fun id => (.var id, ts) := by
  unfold read?
  rw [parseTy]
  cases readUInt64? digits.toList <;> rfl

/-- Reading a function type. -/
theorem read?_fn (ts : List Token) :
    read? (.ident "fn" :: ts) = (expect? '(' ts).bind fun ts => (readList? ')' ts).bind fun params =>
      (readRet? params.2).map fun ret => (.fn params.1.1 (some ret.1), ret.2) := by
  unfold read? readList?
  rw [parseTy.eq_def]
  simp only [if_true]
  rw [← expect_toOption, readOf_bind]
  cases expect '(' ts with
  | error m => rfl
  | ok opened =>
    simp only [Except.toOption, Option.map_some, Option.bind_some]
    rw [readOf_bind]
    cases parseList ')' opened.1 with
    | error m => rfl
    | ok params =>
      obtain ⟨params, rest, hshorter⟩ := params
      cases rest with
      | nil => rfl
      | cons tok ts =>
        cases tok with
        | arrow =>
          simp only [Except.toOption, Option.bind_some, readOf_bind]
          cases hret : parseTy ts <;> simp [readOf, readRet?, read?, hret, Except.toOption]
        | _ => rfl

/-- Reading a name without arguments. -/
theorem read?_name {name : String} {ts : List Token} (hfn : name ≠ "fn")
    (hts : ts.head? ≠ some (.sym '<')) : read? (.ident name :: ts) = some (ofName name, ts) := by
  unfold read?
  rw [parseTy, if_neg hfn]
  · rfl
  · rintro ts' rfl
    exact hts rfl

/-- Reading a name with arguments. -/
theorem read?_applied {name : String} (hfn : name ≠ "fn") (ts : List Token) :
    read? (.ident name :: .sym '<' :: ts) =
      (readArgs? ts).map fun args => (.named name args.1.1 args.1.2, args.2) := by
  unfold read? readArgs?
  rw [parseTy, if_neg hfn]
  cases parseArgs ts <;> rfl

/-- Reading a reference. -/
theorem read?_ref (ts : List Token) :
    read? (.sym '&' :: ts) = (read? (afterWord "mut" (afterRegion ts))).map fun inner =>
      (.ref (regionAt ts) (startsWith "mut" (afterRegion ts)) inner.1, inner.2) := by
  unfold read?
  rw [parseTy]
  cases parseTy (afterWord "mut" (afterRegion ts)) <;> rfl

/-- Reading a pointer. -/
theorem read?_ptr (ts : List Token) :
    read? (.sym '*' :: ts) =
      if startsWith "mut" ts || startsWith "const" ts then
        (read? ts.tail).map fun inner => (.ptr (startsWith "mut" ts) inner.1, inner.2)
      else none := by
  unfold read?
  rw [parseTy]
  by_cases h : (startsWith "mut" ts || startsWith "const" ts) = true
  · rw [if_pos h, if_pos h]
    cases parseTy ts.tail <;> rfl
  · rw [if_neg h, if_neg h]
    rfl

/-- Reading what is in parentheses. -/
theorem read?_paren (ts : List Token) :
    read? (.sym '(' :: ts) = (readList? ')' ts).map fun elems => (grouped elems.1, elems.2) := by
  unfold read? readList?
  rw [parseTy]
  cases parseList ')' ts <;> rfl

/-- Reading an array. -/
theorem read?_array (ts : List Token) :
    read? (.sym '[' :: ts) = (read? ts).bind fun elem => (expect? ';' elem.2).bind fun ts =>
      (readSize? ts).bind fun size => (expect? ']' size.2).map (.array elem.1 size.1, ·) := by
  unfold read?
  rw [parseTy, readOf_bind]
  cases parseTy ts with
  | error m => rfl
  | ok elem =>
    -- the element, the semicolon, the size and the bracket, each of which may be missing
    obtain ⟨elem, rest, helem⟩ := elem
    rw [Except.toOption, Option.bind_some, readOf_bind]
    show _ = (expect? ';' rest).bind _
    rw [← expect_toOption]
    cases expect ';' rest with
    | error m => rfl
    | ok after =>
      obtain ⟨after, hafter⟩ := after
      simp only [Except.toOption, Option.bind_some, Option.map_some]
      cases after with
      | nil => rfl
      | cons tok ts =>
        cases tok with
        | number digits =>
          simp only [readSize?]
          cases readUInt64? digits.toList with
          | none => rfl
          | some size =>
            simp only [readOf_bind, Option.map_some, Option.bind_some, ← expect_toOption]
            cases expect ']' ts <;> rfl
        | _ => rfl

theorem read?_never (ts : List Token) : read? (.sym '!' :: ts) = some (never, ts) := by
  unfold read?
  rw [parseTy]
  rfl

/-- No type starts with another token. -/
theorem read?_of_startsTy {tok : Token} (h : tok.startsTy = false) (ts : List Token) :
    read? (tok :: ts) = none := by
  unfold read?
  cases tok with
  | ident name => cases h
  | var digits => cases h
  | sym c =>
    simp only [Token.startsTy, List.contains_eq_mem, List.mem_cons, List.not_mem_nil, or_false,
      decide_eq_false_iff_not, not_or] at h
    rw [parseTy] <;> simp_all [readOf, Except.toOption]
  | _ => rw [parseTy] <;> simp [readOf, Except.toOption]

/-! ## Lists -/

/-- A list may end at once. -/
theorem readList?_close (close : Char) (ts : List Token) :
    readList? close (.sym close :: ts) = some (([], false), ts) := by
  have hhead : (Token.sym close :: ts).head? = some (.sym close) := rfl
  unfold readList?
  rw [parseList, dif_pos hhead]
  rfl

/-- A list that does not end starts with a type. -/
theorem readList?_eq {close : Char} {ts : List Token} (h : ts.head? ≠ some (.sym close)) :
    readList? close ts = (read? ts).bind fun elem => (readMore? close elem.2).map fun more =>
      ((elem.1 :: more.1.1, more.1.2), more.2) := by
  unfold readList? read?
  rw [parseList, dif_neg h, readOf_bind]
  cases parseTy ts with
  | error m => rfl
  | ok elem =>
    obtain ⟨elem, rest, helem⟩ := elem
    show _ = (readMore? close rest).map _
    simp only [Except.toOption, Option.bind_some]
    split
    · rename_i ts'
      rw [readOf_bind]
      simp only [readMore?, readList?]
      cases parseList close ts' <;> rfl
    · rename_i hcomma
      rw [readOf_bind, readMore?.eq_2 _ _ hcomma, ← expect_toOption]
      cases expect close rest <;> rfl

/-- Arguments may end at once. -/
theorem readArgs?_close (ts : List Token) : readArgs? (.sym '>' :: ts) = some (([], []), ts) := by
  unfold readArgs?
  rw [parseArgs]
  rfl

/-- Regions come as arguments too. -/
theorem readArgs?_region (name : String) (ts : List Token) :
    readArgs? (.region name :: ts) = (readMoreArgs? ts).map fun more =>
      ((regionOf name :: more.1.1, more.1.2), more.2) := by
  unfold readMoreArgs?
  split
  · rename_i ts'
    unfold readArgs?
    rw [parseArgs, readOf_bind]
    cases parseArgs ts' <;> rfl
  · rename_i hcomma
    unfold readArgs?
    rw [parseArgs.eq_3 _ _ hcomma, readOf_bind, ← expect_toOption]
    cases expect '>' ts <;> rfl

/-- An argument that is no region is a type. -/
theorem readArgs?_eq {ts : List Token} (hclose : ts.head? ≠ some (.sym '>'))
    (hregion : ∀ name, ts.head? ≠ some (.region name)) :
    readArgs? ts = (read? ts).bind fun arg => (readMoreArgs? arg.2).map fun more =>
      ((more.1.1, arg.1 :: more.1.2), more.2) := by
  have hclose' : ∀ ts', ts = .sym '>' :: ts' → False := fun ts' h => hclose (h ▸ rfl)
  have hregion' : ∀ name ts', ts = .region name :: ts' → False := fun name ts' h =>
    hregion name (h ▸ rfl)
  unfold readArgs? read?
  rw [parseArgs.eq_4 ts hclose' (fun name ts' => hregion' name _) hregion', readOf_bind]
  cases parseTy ts with
  | error m => rfl
  | ok arg =>
    obtain ⟨arg, rest, harg⟩ := arg
    show _ = (readMoreArgs? rest).map _
    simp only [Except.toOption, Option.bind_some]
    split
    · rename_i ts'
      rw [readOf_bind]
      simp only [readMoreArgs?, readArgs?]
      cases parseArgs ts' <;> rfl
    · rename_i hcomma
      rw [readOf_bind, readMoreArgs?.eq_2 _ hcomma, ← expect_toOption]
      cases expect '>' rest <;> rfl

/-! ## Texts -/

/-- A type is what all tokens are read to be. -/
theorem parseTokens_eq_ok_iff {toks : List Token} {t : Ty} :
    parseTokens toks = .ok t ↔ read? toks = some (t, []) := by
  unfold parseTokens read?
  cases parseTy toks with
  | error m => exact iff_of_false nofun nofun
  | ok p =>
    obtain ⟨value, rest, hshorter⟩ := p
    cases rest with
    | nil => simp [bind, Except.bind, readOf, Except.toOption]
    | cons tok rest => simp [bind, Except.bind, readOf, Except.toOption]

/-- A text stands for the type that its tokens are read to be. -/
theorem parse_eq_ok_iff {text : String} {t : Ty} :
    parse text = .ok t ↔
      ∃ toks, Token.scan text.toList = .ok toks ∧ read? toks = some (t, []) := by
  simp only [← parseTokens_eq_ok_iff]
  rw [parse, mapError_eq_ok_iff, parseChars]
  cases Token.scan text.toList with
  | error m => simp [bind, Except.bind]
  | ok toks =>
    show parseTokens toks = .ok t ↔ _
    simp

end Ty

end Generics
