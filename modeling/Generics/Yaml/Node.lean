import Generics.Yaml.Token

/-!
# Nodes

The document that the tokens of a file describe: scalars, sequences and mappings. An entry left empty
is an empty plain scalar.
-/

namespace Generics.Yaml

open Text

/-- A part of a document. -/
inductive Node where
  | scalar (pos : Position) (text : String) (isPlain : Bool)
  | seq (pos : Position) (items : List Node)
  | map (pos : Position) (entries : List (Node × Node))

namespace Node

/-- Where a node begins: the bracket, or the first dash or key of a block. -/
def pos : Node → Position
  | scalar pos _ _ => pos
  | seq pos _ => pos
  | map pos _ => pos

/-- The scalars that stand for nothing when they are written plain. -/
def nullTexts : List String := ["", "~", "null", "Null", "NULL"]

/-- The node stands for nothing. -/
def isNull : Node → Bool
  | scalar _ text isPlain => isPlain && nullTexts.contains text
  | _ => false

/-- A node that is left out. -/
def empty : Node := scalar .start "" true

/-- A node, or nothing, in front of `ts`. -/
abbrev Optional (ts : List PlacedToken) := Node × { rest : List PlacedToken // rest.length ≤ ts.length }

/-- No node stands before one of these tokens. -/
def stops (tokens : List Token) : List PlacedToken → Bool
  | [] => false
  | (t, _) :: _ => tokens.contains t

mutual

/-- Reads a node. Block collections are read if `block` is true, and entries of a sequence without a
block of its own if `indentless` is true. -/
def read (block indentless : Bool) (ts : List PlacedToken) : Option (Parsed Node ts) :=
  match ts with
  | (.scalar text isPlain, pos) :: ts => some ⟨.scalar pos text isPlain, ts, Nat.lt_succ_self _⟩
  | (.openSeq, pos) :: ts => do
    let items ← readFlowItems ts
    return ⟨.seq pos items.value, items.rest, Nat.lt_succ_of_lt items.shorter⟩
  | (.openMap, pos) :: ts => do
    let entries ← readFlowEntries ts
    return ⟨.map pos entries.value, entries.rest, Nat.lt_succ_of_lt entries.shorter⟩
  | (.blockSeq, pos) :: ts => do
    if !block then none
    let items ← readItems ts
    return ⟨.seq pos items.value, items.rest, Nat.lt_succ_of_lt items.shorter⟩
  | (.blockMap, pos) :: ts => do
    if !block then none
    let entries ← readEntries ts
    return ⟨.map pos entries.value, entries.rest, Nat.lt_succ_of_lt entries.shorter⟩
  | (.dash, pos) :: ts => do
    if !indentless then none
    let (items, ⟨rest, hrest⟩) ← readIndentless ts
    return ⟨.seq pos items, rest, Nat.lt_succ_of_le hrest⟩
  | _ => none
termination_by (ts.length, 0)

/-- Reads a node unless one of the given tokens comes next. -/
def readOr (block indentless : Bool) (enders : List Token) (ts : List PlacedToken) :
    Option (Optional ts) :=
  if stops enders ts then some (.empty, ⟨ts, Nat.le_refl _⟩)
  else do
    let n ← read block indentless ts
    return (n.value, ⟨n.rest, Nat.le_of_lt n.shorter⟩)
termination_by (ts.length, 1)

/-- Reads the value of a key, if it has one. -/
def readValue (block : Bool) (enders : List Token) (ts : List PlacedToken) : Option (Optional ts) :=
  match ts with
  | (.value, _) :: ts => do
    let (n, ⟨rest, hrest⟩) ← readOr block block enders ts
    return (n, ⟨rest, Nat.le_succ_of_le hrest⟩)
  | ts => some (.empty, ⟨ts, Nat.le_refl _⟩)
termination_by (ts.length, 2)

/-- Reads the entries of a block sequence and its end. -/
def readItems (ts : List PlacedToken) : Option (Parsed (List Node) ts) :=
  match ts with
  | (.blockEnd, _) :: ts => some ⟨[], ts, Nat.lt_succ_self _⟩
  | (.dash, _) :: ts => do
    let (n, ⟨rest, hrest⟩) ← readOr true false [.dash, .blockEnd] ts
    let more ← readItems rest
    return ⟨n :: more.value, more.rest,
      Nat.lt_succ_of_lt (Nat.lt_of_lt_of_le more.shorter hrest)⟩
  | _ => none
termination_by (ts.length, 2)

/-- Reads entries of a sequence without a block of its own, after the first dash. -/
def readIndentless (ts : List PlacedToken) :
    Option (List Node × { rest : List PlacedToken // rest.length ≤ ts.length }) := do
  let (n, ⟨rest, hrest⟩) ← readOr true false [.dash, .key, .value, .blockEnd] ts
  match rest, hrest with
  | (.dash, _) :: rest, hrest => do
    have : rest.length < ts.length := by simp only [List.length_cons] at hrest; omega
    let (more, ⟨rest', hrest'⟩) ← readIndentless rest
    return (n :: more, ⟨rest', by omega⟩)
  | rest, hrest => return ([n], ⟨rest, hrest⟩)
termination_by (ts.length, 2)

/-- Reads the entries of a block mapping and its end. -/
def readEntries (ts : List PlacedToken) : Option (Parsed (List (Node × Node)) ts) :=
  match ts with
  | (.blockEnd, _) :: ts => some ⟨[], ts, Nat.lt_succ_self _⟩
  | (.key, _) :: ts => do
    let (k, ⟨rest, hrest⟩) ← readOr true true [.key, .value, .blockEnd] ts
    let (v, ⟨rest', hrest'⟩) ← readValue true [.key, .value, .blockEnd] rest
    let more ← readEntries rest'
    return ⟨(k, v) :: more.value, more.rest,
      Nat.lt_succ_of_lt (Nat.lt_of_lt_of_le more.shorter (Nat.le_trans hrest' hrest))⟩
  | _ => none
termination_by (ts.length, 2)

/-- Reads an item of a sequence in brackets. A key makes a mapping of one entry. -/
def readFlowItem (ts : List PlacedToken) : Option (Parsed Node ts) :=
  match ts with
  | (.key, pos) :: ts => do
    let (k, ⟨rest, hrest⟩) ← readOr false false [.value, .comma, .closeSeq] ts
    let (v, ⟨rest', hrest'⟩) ← readValue false [.comma, .closeSeq] rest
    return ⟨.map pos [(k, v)], rest', Nat.lt_succ_of_le (Nat.le_trans hrest' hrest)⟩
  | ts => read false false ts
termination_by (ts.length, 2)

/-- Reads the items of a sequence in brackets and the closing bracket. -/
def readFlowItems (ts : List PlacedToken) : Option (Parsed (List Node) ts) :=
  match ts with
  | (.closeSeq, _) :: ts => some ⟨[], ts, Nat.lt_succ_self _⟩
  | ts => do
    let n ← readFlowItem ts
    have hn := n.shorter
    match h : n.rest with
    | (.comma, _) :: rest => do
      have hrest : rest.length < ts.length := by simp only [h, List.length_cons] at hn; omega
      let more ← readFlowItems rest
      return ⟨n.value :: more.value, more.rest, Nat.lt_trans more.shorter hrest⟩
    | (.closeSeq, _) :: rest =>
      return ⟨[n.value], rest, by simp only [h, List.length_cons] at hn; omega⟩
    | _ => none
termination_by (ts.length, 3)

/-- Reads an entry of a mapping in brackets. -/
def readFlowEntry (ts : List PlacedToken) : Option (Parsed (Node × Node) ts) :=
  match ts with
  | (.key, _) :: ts => do
    let (k, ⟨rest, hrest⟩) ← readOr false false [.value, .comma, .closeMap] ts
    let (v, ⟨rest', hrest'⟩) ← readValue false [.comma, .closeMap] rest
    return ⟨(k, v), rest', Nat.lt_succ_of_le (Nat.le_trans hrest' hrest)⟩
  | ts => do
    let n ← read false false ts
    return ⟨(n.value, .empty), n.rest, n.shorter⟩
termination_by (ts.length, 2)

/-- Reads the entries of a mapping in brackets and the closing bracket. -/
def readFlowEntries (ts : List PlacedToken) : Option (Parsed (List (Node × Node)) ts) :=
  match ts with
  | (.closeMap, _) :: ts => some ⟨[], ts, Nat.lt_succ_self _⟩
  | ts => do
    let e ← readFlowEntry ts
    have he := e.shorter
    match h : e.rest with
    | (.comma, _) :: rest => do
      have hrest : rest.length < ts.length := by simp only [h, List.length_cons] at he; omega
      let more ← readFlowEntries rest
      return ⟨e.value :: more.value, more.rest, Nat.lt_trans more.shorter hrest⟩
    | (.closeMap, _) :: rest =>
      return ⟨[e.value], rest, by simp only [h, List.length_cons] at he; omega⟩
    | _ => none
termination_by (ts.length, 3)

end

/-- The document of the tokens: none if there is none, and `none` outside if they are malformed. What
follows the first document does not matter. -/
def ofTokens? (ts : List PlacedToken) : Option (Option Node) :=
  match ts.dropWhile fun t => t.1 = .documentEnd with
  | [] => some none
  | (.documentStart, _) :: ts =>
    if ts.isEmpty || stops [.documentStart, .documentEnd] ts then some none
    else (read true false ts).map fun n => some n.value
  | ts => (read true false ts).map fun n => some n.value

/-- The document of a file. -/
def parse? (text : String) : Option (Option Node) := (tokens? text).bind ofTokens?

end Node

end Generics.Yaml
