import Generics.Text.Parsed
import Generics.Yaml.Placed

/-!
# Scalars

A scalar is written plain or in quotes. A gap inside it that runs over the end of a line is *folded*: a
single end of line becomes a space, and of several all but the first are kept. In single quotes a quote
is doubled; in double quotes a backslash starts an escape.
-/

namespace Generics.Yaml

open Text

/-- What a gap inside a scalar stands for. -/
def fold (gap : List Char) : List Char :=
  match gap.dropWhile fun c => !isBreak c with
  | [] => gap
  | first :: rest =>
    let breaks := rest.filter isBreak
    if first = '\n' then (if breaks.isEmpty then [' '] else breaks) else first :: breaks

/-- The gap in front of a text. -/
def gapOf (ps : List Placed) : List Placed := ps.takeWhile fun p => isGap p.char

/-- The text after the gap in front of it. -/
def afterGap (ps : List Placed) : List Placed := ps.dropWhile fun p => isGap p.char

/-- The characters without their places. -/
def chars (ps : List Placed) : List Char := ps.map Placed.char

theorem length_afterGap_le (ps : List Placed) : (afterGap ps).length ≤ ps.length :=
  (List.dropWhile_sublist _).length_le

theorem length_gapOf_add_afterGap (ps : List Placed) :
    (gapOf ps).length + (afterGap ps).length = ps.length := by
  rw [← List.length_append, gapOf, afterGap, List.takeWhile_append_dropWhile]

/-! ## Plain scalars -/

/-- The characters that end a plain scalar inside brackets. -/
def flowIndicators : List Char := [',', '?', '[', ']', '\x7b', '\x7d']

/-- Takes characters up to a gap, a colon at the end of a word or, inside brackets, an indicator. -/
def plainRun (inFlow : Bool) : List Placed → List Char × List Placed
  | [] => ([], [])
  | p :: ps =>
    if isGap p.char || (p.char = ':' && endsWord ps) || (inFlow && flowIndicators.contains p.char) then
      ([], p :: ps)
    else
      let (cs, rest) := plainRun inFlow ps
      (p.char :: cs, rest)

theorem length_plainRun_le (inFlow : Bool) (ps : List Placed) :
    (plainRun inFlow ps).2.length ≤ ps.length := by
  induction ps with
  | nil => simp [plainRun]
  | cons p ps ih =>
    simp only [plainRun]
    split
    · simp
    · simp only [List.length_cons]
      omega

/-- A tab stands in the gap where a later line is indented. -/
def tabIndents (indent : Nat) (gap : List Placed) : Bool :=
  (gap.dropWhile fun p => !isBreak p.char).any fun p => p.char = '\t' && p.pos.column ≤ indent

/-- The rest of a plain scalar after a run of characters, and whether a line ended after its last
character. In a block the scalar goes on only on lines indented deeper than `indent`. -/
def plainTail (inFlow : Bool) (indent : Nat) (ps : List Placed) :
    Option (List Char × Bool × { rest : List Placed // rest.length ≤ ps.length }) :=
  if hgap : (gapOf ps).isEmpty then some ([], false, ⟨ps, Nat.le_refl _⟩)
  else if tabIndents indent (gapOf ps) then none
  else
    have hlen := length_gapOf_add_afterGap ps
    have hpos : 0 < (gapOf ps).length := by
      cases h : gapOf ps with
      | nil => simp [h] at hgap
      | cons => simp
    have hrun := length_plainRun_le inFlow (afterGap ps)
    let broken := (gapOf ps).any fun p => isBreak p.char
    let stopped := some ([], broken, ⟨afterGap ps, length_afterGap_le ps⟩)
    match (afterGap ps).head? with
    | none => stopped
    | some p =>
      if (!inFlow && p.pos.column ≤ indent) || p.char = '#' || (documentMark? (afterGap ps)).isSome then
        stopped
      else if (plainRun inFlow (afterGap ps)).1.isEmpty then stopped
      else do
        let (more, broken, ⟨rest, hrest⟩) ← plainTail inFlow indent (plainRun inFlow (afterGap ps)).2
        return (fold (chars (gapOf ps)) ++ (plainRun inFlow (afterGap ps)).1 ++ more, broken,
          ⟨rest, by omega⟩)
termination_by ps.length

/-- Reads a plain scalar, and whether a line ended after its last character. -/
def plain (inFlow : Bool) (indent : Nat) (p : Placed) (ps : List Placed) :
    Option (Parsed (String × Bool) (p :: ps)) := do
  have hrun := length_plainRun_le inFlow ps
  let (more, broken, ⟨rest, hrest⟩) ← plainTail inFlow indent (plainRun inFlow ps).2
  return ⟨(String.ofList (p.char :: (plainRun inFlow ps).1 ++ more), broken), rest, by
    simp only [List.length_cons]
    omega⟩

/-! ## Quoted scalars -/

/-- Reads a scalar in single quotes, after the opening quote. -/
def singleQuoted (ps : List Placed) : Option (Parsed (List Char) ps) :=
  match ps with
  | [] => none
  | ⟨'\'', _⟩ :: ⟨'\'', _⟩ :: ps => do
    let s ← singleQuoted ps
    return ⟨'\'' :: s.value, s.rest, Nat.lt_succ_of_lt (Nat.lt_succ_of_lt s.shorter)⟩
  | ⟨'\'', _⟩ :: ps => some ⟨[], ps, Nat.lt_succ_self _⟩
  | p :: ps =>
    if isGap p.char then
      have hrest := length_afterGap_le ps
      if (documentMark? (afterGap ps)).isSome then none
      else do
        let s ← singleQuoted (afterGap ps)
        return ⟨fold (p.char :: chars (gapOf ps)) ++ s.value, s.rest,
          Nat.lt_succ_of_lt (Nat.lt_of_lt_of_le s.shorter hrest)⟩
    else do
      let s ← singleQuoted ps
      return ⟨p.char :: s.value, s.rest, Nat.lt_succ_of_lt s.shorter⟩
termination_by ps.length

/-- The escapes of a single character: the character and what it stands for. -/
def letterEscapes : List (Char × Char) :=
  [('0', '\x00'), ('a', '\x07'), ('b', '\x08'), ('t', '\t'), ('\t', '\t'), ('n', '\n'), ('v', '\x0b'),
   ('f', '\x0c'), ('r', '\r'), ('e', '\x1b'), (' ', ' '), ('"', '"'), ('\'', '\''), ('/', '/'),
   ('\\', '\\'), ('N', '\u0085'), ('_', '\u00a0'), ('L', '\u2028'), ('P', '\u2029')]

/-- The escapes of a code point: the character and the number of hexadecimal digits that follow. -/
def codeEscapes : List (Char × Nat) := [('x', 2), ('u', 4), ('U', 8)]

/-- The value of a hexadecimal digit. -/
def hexDigit? (c : Char) : Option Nat :=
  if '0' ≤ c && c ≤ '9' then some (c.toNat - '0'.toNat)
  else if 'a' ≤ c && c ≤ 'f' then some (c.toNat - 'a'.toNat + 10)
  else if 'A' ≤ c && c ≤ 'F' then some (c.toNat - 'A'.toNat + 10)
  else none

/-- The character of a code point written in exactly `count` hexadecimal digits. -/
def codePoint? (count : Nat) (ps : List Placed) : Option Char := do
  let digits ← (ps.take count).mapM fun p => hexDigit? p.char
  let n := digits.foldl (fun n d => 16 * n + d) 0
  if digits.length = count && n.isValidChar then some (Char.ofNat n) else none

/-- Reads an escape after the backslash. -/
def escape (ps : List Placed) : Option (Parsed (List Char) ps) :=
  match ps with
  | [] => none
  | p :: ps =>
    if isBreak p.char then
      some ⟨(chars (gapOf ps)).filter isBreak, afterGap ps, Nat.lt_succ_of_le (length_afterGap_le ps)⟩
    else
      match letterEscapes.lookup p.char, codeEscapes.lookup p.char with
      | some c, _ => some ⟨[c], ps, Nat.lt_succ_self _⟩
      | none, some count => do
        let c ← codePoint? count ps
        return ⟨[c], ps.drop count, by simp only [List.length_drop, List.length_cons]; omega⟩
      | none, none => none

/-- Reads a scalar in double quotes, after the opening quote. -/
def doubleQuoted (ps : List Placed) : Option (Parsed (List Char) ps) :=
  match ps with
  | [] => none
  | ⟨'"', _⟩ :: ps => some ⟨[], ps, Nat.lt_succ_self _⟩
  | ⟨'\\', _⟩ :: ps => do
    let e ← escape ps
    have := e.shorter
    let s ← doubleQuoted e.rest
    return ⟨e.value ++ s.value, s.rest, Nat.lt_succ_of_lt (Nat.lt_trans s.shorter e.shorter)⟩
  | p :: ps =>
    if isGap p.char then
      have hrest := length_afterGap_le ps
      if (documentMark? (afterGap ps)).isSome then none
      else do
        let s ← doubleQuoted (afterGap ps)
        return ⟨fold (p.char :: chars (gapOf ps)) ++ s.value, s.rest,
          Nat.lt_succ_of_lt (Nat.lt_of_lt_of_le s.shorter hrest)⟩
    else do
      let s ← doubleQuoted ps
      return ⟨p.char :: s.value, s.rest, Nat.lt_succ_of_lt s.shorter⟩
termination_by ps.length

end Generics.Yaml
