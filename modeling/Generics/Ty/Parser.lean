import Generics.Error
import Generics.Text.Decimal
import Generics.Text.Parsed
import Generics.Ty.Basic
import Generics.Ty.Primitive
import Generics.Ty.Token

/-!
# Reading types

A type is read from its tokens by recursive descent, one token ahead. Each reader returns what it
read together with the tokens that are left, which are fewer than it was given.
-/

namespace Generics.Ty

open Text

/-- The text of the next token, for a message. -/
def nextText : List Token → String
  | [] => "<end>"
  | tok :: _ => tok.text

/-- The region that a region token names; `'_` is the elided one. -/
def regionOf (name : String) : Region := if name = "'_" then .elided else ⟨name⟩

/-- The region at the front, elided if there is none. -/
def regionAt : List Token → Region
  | .region name :: _ => regionOf name
  | _ => .elided

/-- The tokens after a region at the front. -/
def afterRegion : List Token → List Token
  | .region _ :: ts => ts
  | ts => ts

/-- The next token is the given word. -/
def startsWith (word : String) : List Token → Bool
  | .ident name :: _ => name = word
  | _ => false

/-- The tokens after the given word at the front. -/
def afterWord (word : String) (ts : List Token) : List Token :=
  if startsWith word ts then ts.tail else ts

/-- The tokens after the punctuation `c`, which must come next. -/
def expect (c : Char) : (ts : List Token) → Except Malformation { rest : List Token // rest.length < ts.length }
  | [] => .error (.expected c.toString (nextText []))
  | tok :: ts =>
    if tok = .sym c then .ok ⟨ts, Nat.lt_succ_self _⟩
    else .error (.expected c.toString tok.text)

theorem length_afterRegion_le (ts : List Token) : (afterRegion ts).length ≤ ts.length := by
  unfold afterRegion
  split <;> simp

theorem length_afterWord_le (word : String) (ts : List Token) :
    (afterWord word ts).length ≤ ts.length := by
  unfold afterWord
  split <;> simp

/-- The type with this name when no argument list follows. -/
def ofName (name : String) : Ty :=
  if Primitive.isName name then .prim name else .named name [] []

mutual

/-- Reads one type. -/
def parseTy : (ts : List Token) → Except Malformation (Parsed Ty ts)
  | [] => .error .typeExpected
  | .var digits :: ts =>
    match readUInt64? digits.toList with
    | some id => .ok ⟨.var id, ts, Nat.lt_succ_self _⟩
    | none => .error (.badVariable digits)
  | .ident name :: ts =>
    if name = "fn" then do
      let opened ← expect '(' ts
      let params ← parseList ')' opened.1
      have hparams : params.rest.length < ts.length := Nat.lt_trans params.shorter opened.2
      match h : params.rest with
      | .arrow :: ts' => do
        have hret : ts'.length < ts.length := by simp only [h, List.length_cons] at hparams; omega
        let ret ← parseTy ts'
        .ok ⟨.fn params.value.1 (some ret.value), ret.rest,
          Nat.lt_succ_of_lt (Nat.lt_trans ret.shorter hret)⟩
      | ts' => .ok ⟨.fn params.value.1 (some unit), ts', Nat.lt_succ_of_lt (h ▸ hparams)⟩
    else
      match ts with
      | .sym '<' :: ts' => do
        let args ← parseArgs ts'
        .ok ⟨.named name args.value.1 args.value.2, args.rest,
          Nat.lt_succ_of_lt (Nat.lt_succ_of_lt args.shorter)⟩
      | ts' => .ok ⟨ofName name, ts', Nat.lt_succ_self _⟩
  | .sym '&' :: ts => do
    have hts : (afterWord "mut" (afterRegion ts)).length ≤ ts.length :=
      Nat.le_trans (length_afterWord_le _ _) (length_afterRegion_le ts)
    let inner ← parseTy (afterWord "mut" (afterRegion ts))
    .ok ⟨.ref (regionAt ts) (startsWith "mut" (afterRegion ts)) inner.value, inner.rest,
      Nat.lt_succ_of_lt (Nat.lt_of_lt_of_le inner.shorter hts)⟩
  | .sym '*' :: ts =>
    if startsWith "mut" ts || startsWith "const" ts then do
      have hts : ts.tail.length ≤ ts.length := by simp
      let inner ← parseTy ts.tail
      .ok ⟨.ptr (startsWith "mut" ts) inner.value, inner.rest,
        Nat.lt_succ_of_lt (Nat.lt_of_lt_of_le inner.shorter hts)⟩
    else .error .pointerQualifier
  | .sym '(' :: ts => do
    let elems ← parseList ')' ts
    let value := match elems.value with
      | ([elem], false) => elem
      | (elems, _) => .tuple elems
    .ok ⟨value, elems.rest, Nat.lt_succ_of_lt elems.shorter⟩
  | .sym '[' :: ts => do
    let elem ← parseTy ts
    let sizeToks ← expect ';' elem.rest
    match h : sizeToks.1 with
    | .number digits :: ts' =>
      match readUInt64? digits.toList with
      | some size => do
        let rest ← expect ']' ts'
        .ok ⟨.array elem.value size, rest.1, by
          have helem := elem.shorter
          have hsize := sizeToks.2
          have hrest := rest.2
          simp only [h, List.length_cons] at *
          omega⟩
      | none => .error (.badSize digits)
    | ts' => .error (.sizeExpected (nextText ts'))
  | .sym '!' :: ts => .ok ⟨never, ts, Nat.lt_succ_self _⟩
  | tok :: _ => .error (.unexpected tok.text)
termination_by ts => (ts.length, 0)

/-- Reads types separated by commas up to the closing bracket, and says whether a comma stood before
the bracket. -/
def parseList (close : Char) (ts : List Token) : Except Malformation (Parsed (List Ty × Bool) ts) :=
  if h : ts.head? = some (.sym close) then .ok ⟨([], false), ts.tail, by
    cases ts <;> simp_all⟩
  else do
    let elem ← parseTy ts
    have helem : elem.rest.length < ts.length := elem.shorter
    match h : elem.rest with
    | .sym ',' :: ts' => do
      have hts : ts'.length < ts.length := by simp only [h, List.length_cons] at helem; omega
      let elems ← parseList close ts'
      .ok ⟨(elem.value :: elems.value.1, elems.value.1.isEmpty || elems.value.2), elems.rest,
        Nat.lt_trans elems.shorter hts⟩
    | ts' => do
      let rest ← expect close ts'
      .ok ⟨([elem.value], false), rest.1, Nat.lt_trans rest.2 (h ▸ helem)⟩
termination_by (ts.length, 1)

/-- Reads regions and types separated by commas up to the closing angle bracket. -/
def parseArgs (ts : List Token) : Except Malformation (Parsed (List Region × List Ty) ts) :=
  match ts with
  | .sym '>' :: ts' => .ok ⟨([], []), ts', Nat.lt_succ_self _⟩
  | .region name :: .sym ',' :: ts' => do
    let args ← parseArgs ts'
    .ok ⟨(regionOf name :: args.value.1, args.value.2), args.rest,
      Nat.lt_succ_of_lt (Nat.lt_succ_of_lt args.shorter)⟩
  | .region name :: ts' => do
    let rest ← expect '>' ts'
    .ok ⟨([regionOf name], []), rest.1, Nat.lt_succ_of_lt rest.2⟩
  | ts => do
    let arg ← parseTy ts
    have harg : arg.rest.length < ts.length := arg.shorter
    match h : arg.rest with
    | .sym ',' :: ts' => do
      have hts : ts'.length < ts.length := by simp only [h, List.length_cons] at harg; omega
      let args ← parseArgs ts'
      .ok ⟨(args.value.1, arg.value :: args.value.2), args.rest, Nat.lt_trans args.shorter hts⟩
    | ts' => do
      let rest ← expect '>' ts'
      .ok ⟨([], [arg.value]), rest.1, Nat.lt_trans rest.2 (h ▸ harg)⟩
termination_by (ts.length, 1)

end

/-- Reads a type from all of the given tokens. -/
def parseTokens (ts : List Token) : Except Malformation Ty := do
  let t ← parseTy ts
  match t.rest with
  | [] => .ok t.value
  | tok :: _ => .error (.trailing tok.text)

/-- Reads a type from all of a text. -/
def parseChars (cs : List Char) : Except Malformation Ty := do
  parseTokens (← Token.scan cs)

/-- Reads a written type. -/
def parse (text : String) : Except Error Ty :=
  (parseChars text.toList).mapError fun m => .malformedType text m.reason

end Generics.Ty
