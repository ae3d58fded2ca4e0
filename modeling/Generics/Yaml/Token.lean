import Generics.Yaml.Scalar

/-!
# Tokens

A file is first cut into tokens. Brackets, commas and quotes show themselves; the structure of blocks
comes from the columns at which lines start and is made explicit here: a block opens when an entry
stands further to the right than the block around it, and closes when a line starts further to the
left.

A key is only known to be one by the colon after it. Where a key may stand, the scanner therefore
remembers what begins there as a *candidate*; a colon on the same line then puts the key token, and if
need be the opening of a mapping, in front of it.
-/

namespace Generics.Yaml

open Text

/-- A token. -/
inductive Token where
  | scalar (text : String) (isPlain : Bool)
  | openSeq
  | closeSeq
  | openMap
  | closeMap
  | comma
  /-- A block sequence begins. -/
  | blockSeq
  /-- A block mapping begins. -/
  | blockMap
  /-- The innermost block ends. -/
  | blockEnd
  /-- An entry of a block sequence begins. -/
  | dash
  /-- A key of a mapping begins. -/
  | key
  /-- The value of a key begins. -/
  | value
  /-- A document begins. -/
  | documentStart
  /-- A document ends. -/
  | documentEnd
deriving DecidableEq, Repr

/-- Something that becomes a key if a colon follows it on the same line. -/
structure KeyCandidate where
  /-- The number of tokens before it. -/
  index : Nat
  pos : Position
  /-- Nothing but a key may stand here. -/
  required : Bool
deriving DecidableEq, Repr

/-- A token and where it begins. -/
abbrev PlacedToken := Token × Position

/-- How far scanning has come. -/
structure Scanner where
  /-- The tokens so far, the latest first. -/
  tokens : List PlacedToken := []
  /-- The columns of the open blocks, the innermost first. -/
  indents : List Nat := []
  candidate : Option KeyCandidate := none
  /-- The candidates outside each open bracket, the innermost first. -/
  outer : List (Option KeyCandidate) := []
  /-- A key may stand next. -/
  keyAllowed : Bool := true

namespace Scanner

/-- Scanning is inside brackets. -/
def inFlow (s : Scanner) : Bool := !s.outer.isEmpty

/-- The column of the innermost block, 0 outside all blocks. -/
def indent (s : Scanner) : Nat := s.indents.head?.getD 0

/-- Adds a token. -/
def emit (s : Scanner) (t : Token) (pos : Position) : Scanner :=
  { s with tokens := (t, pos) :: s.tokens }

/-- Puts a token where `index` tokens stand before it. -/
def insertAt (s : Scanner) (index : Nat) (t : Token) (pos : Position) : Scanner :=
  let later := s.tokens.length - index
  { s with tokens := s.tokens.take later ++ (t, pos) :: s.tokens.drop later }

/-- Closes the blocks that stand to the right of a column. Inside brackets columns do not matter. -/
def closeBlocks (s : Scanner) (column : Nat) (pos : Position) : Scanner :=
  if s.inFlow then s
  else
    let closed := s.indents.takeWhile (column < ·)
    { s with indents := s.indents.drop closed.length
             tokens := closed.map (fun _ => (Token.blockEnd, pos)) ++ s.tokens }

/-- Opens a block at a column to the right of the innermost one; its token is put where `index` tokens
stand before it. -/
def openBlock (s : Scanner) (index : Nat) (t : Token) (pos : Position) : Scanner :=
  if s.inFlow || pos.column ≤ s.indent then s
  else { s.insertAt index t pos with indents := pos.column :: s.indents }

/-- Gives up the candidate, unless it had to become a key. -/
def dropCandidate (s : Scanner) : Option Scanner :=
  match s.candidate with
  | some k => if k.required then none else some { s with candidate := none }
  | none => some s

/-- Remembers what begins here as a candidate, if a key may stand here. -/
def noteCandidate (s : Scanner) (pos : Position) : Option Scanner :=
  if !s.keyAllowed then some s
  else do
    let s ← s.dropCandidate
    let required := !s.inFlow && s.indent = pos.column
    return { s with candidate := some ⟨s.tokens.length, pos, required⟩ }

/-- How far a colon may stand from the beginning of its key. -/
def maxKeyLength : Nat := 1024

/-- A colon here makes the candidate a key. -/
def KeyCandidate.reaches (k : KeyCandidate) (pos : Position) : Bool :=
  k.pos.line = pos.line && pos.column ≤ k.pos.column + maxKeyLength

/-- An opening bracket. -/
def openBracket (s : Scanner) (t : Token) (pos : Position) : Option Scanner := do
  let s ← s.noteCandidate pos
  return { s.emit t pos with candidate := none, outer := s.candidate :: s.outer, keyAllowed := true }

/-- A closing bracket. -/
def closeBracket (s : Scanner) (t : Token) (pos : Position) : Option Scanner := do
  let s ← s.dropCandidate
  let s := match s.outer with
    | [] => s
    | candidate :: outer => { s with candidate, outer }
  return { s.emit t pos with keyAllowed := false }

/-- A comma. -/
def comma (s : Scanner) (pos : Position) : Option Scanner := do
  let s ← s.dropCandidate
  return { s.emit .comma pos with keyAllowed := true }

/-- The dash of a block sequence. -/
def dash (s : Scanner) (pos : Position) : Option Scanner := do
  if !s.inFlow && !s.keyAllowed then none
  let s := s.openBlock s.tokens.length .blockSeq pos
  let s ← s.dropCandidate
  return { s.emit .dash pos with keyAllowed := true }

/-- The question mark of a written-out key. -/
def question (s : Scanner) (pos : Position) : Option Scanner := do
  if !s.inFlow && !s.keyAllowed then none
  let s := s.openBlock s.tokens.length .blockMap pos
  let s ← s.dropCandidate
  return { s.emit .key pos with keyAllowed := !s.inFlow }

/-- The colon of a value whose key was not a candidate. -/
def looseColon (s : Scanner) (pos : Position) : Option Scanner :=
  if !s.inFlow && !s.keyAllowed then none
  else
    let s := s.openBlock s.tokens.length .blockMap pos
    some { s.emit .value pos with keyAllowed := !s.inFlow }

/-- The colon of a value. -/
def colon (s : Scanner) (pos : Position) : Option Scanner :=
  match s.candidate with
  | none => s.looseColon pos
  | some k =>
    if KeyCandidate.reaches k pos then
      let s := (s.insertAt k.index .key k.pos).openBlock k.index .blockMap k.pos
      some { s.emit .value pos with candidate := none, keyAllowed := false }
    else do (← s.dropCandidate).looseColon pos

/-- A scalar. A key may stand next if a line ended after it. -/
def scalar (s : Scanner) (text : String) (isPlain keyAllowed : Bool) (pos : Position) :
    Option Scanner := do
  let s ← s.noteCandidate pos
  return { s.emit (.scalar text isPlain) pos with keyAllowed }

/-- A mark between documents. -/
def documentMark (s : Scanner) (mark : Char) (pos : Position) : Option Scanner := do
  let s ← (s.closeBlocks 0 pos).dropCandidate
  let t := if mark = '-' then Token.documentStart else .documentEnd
  return { s.emit t pos with keyAllowed := false }

/-- The end of the file. -/
def finish (s : Scanner) (pos : Position) : Option (List PlacedToken) := do
  let s ← (s.closeBlocks 0 pos).dropCandidate
  return s.tokens.reverse

end Scanner

/-- The characters that no plain scalar begins with. -/
def indicators : List Char :=
  ['-', '?', ':', ',', '[', ']', '\x7b', '\x7d', '#', '&', '*', '!', '|', '>', '\'', '"', '%', '@', '\x60']

/-- A plain scalar begins here. A dash, and outside brackets a question mark or a colon, begin one if a
word goes on after them. -/
def startsPlain (inFlow : Bool) (c : Char) (rest : List Placed) : Bool :=
  !indicators.contains c || (c = '-' && !endsWord rest) ||
    (!inFlow && (c = '?' || c = ':') && !endsWord rest)

/-- Scans one token or skips one gap or comment. -/
def Scanner.step (s : Scanner) (p : Placed) (ps : List Placed) : Option (Parsed Scanner (p :: ps)) :=
  let c := p.char
  let one (s : Option Scanner) : Option (Parsed Scanner (p :: ps)) :=
    s.map fun s => .ofToken s p ps
  if isBreak c then one (some { s with keyAllowed := s.keyAllowed || !s.inFlow })
  else if c = ' ' then one (some s)
  else if c = '\t' then (if s.inFlow || !s.keyAllowed then one (some s) else none)
  else if c = '#' then
    some (.ofTokensWhile s p ps fun q => !isBreak q.char)
  else
    let s := s.closeBlocks p.pos.column p.pos
    match documentMark? (p :: ps) with
    | some mark =>
      (s.documentMark mark p.pos).map fun s => .ofTokens s p ps 2
    | none =>
      if c = '[' then one (s.openBracket .openSeq p.pos)
      else if c = ']' then one (s.closeBracket .closeSeq p.pos)
      else if c = '\x7b' then one (s.openBracket .openMap p.pos)
      else if c = '\x7d' then one (s.closeBracket .closeMap p.pos)
      else if c = ',' then one (s.comma p.pos)
      else if c = '-' && endsWord ps then one (s.dash p.pos)
      else if c = '?' && (s.inFlow || endsWord ps) then one (s.question p.pos)
      else if c = ':' && (s.inFlow || endsWord ps) then one (s.colon p.pos)
      else if c = '\'' then do
        let q ← singleQuoted ps
        let s ← s.scalar (String.ofList q.value) false false p.pos
        return q.after p s
      else if c = '"' then do
        let q ← doubleQuoted ps
        let s ← s.scalar (String.ofList q.value) false false p.pos
        return q.after p s
      else if startsPlain s.inFlow c ps then do
        let q ← plain s.inFlow s.indent p ps
        let s ← s.scalar q.value.1 true q.value.2 p.pos
        return ⟨s, q.rest, q.shorter⟩
      else none

/-- Scans tokens up to the end of the file. -/
def Scanner.run (s : Scanner) (ps : List Placed) (last : Position) : Option (List PlacedToken) :=
  match ps with
  | [] => s.finish last
  | p :: ps => do
    let r ← s.step p ps
    r.value.run r.rest p.pos
termination_by ps.length
decreasing_by exact r.shorter

/-- The tokens of a file. -/
def tokens? (text : String) : Option (List PlacedToken) :=
  if text.toList.all isAllowed then Scanner.run {} (placed text) .start else none

end Generics.Yaml
