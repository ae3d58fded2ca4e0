import Generics.Fresh
import Generics.Text.Decimal
import Generics.Text.Ident
import Generics.Ty.Expand

/-!
# Holes in annotations

An underscore that stands by itself in an annotation is a *hole*, a type that is left to inference.
Before aliases are expanded the holes of a text get names of their own, `_0`, `_1`, …, so that an alias
may use its argument in several places and all of them stay one hole.
-/

namespace Generics.Hole

open Text

/-- The name of a hole by its number. -/
def name (n : Nat) : String := String.ofList ('_' :: decimal n)

/-- An underscore between these characters is a hole: it is no part of a word or of a region. -/
def standsAlone (before after : Option Char) : Bool :=
  !before.any (fun c => isIdentChar c || c = '\'') && !after.any isIdentChar

/-- Names the holes of a text from the number `n` on. Gives the text and the number of the next hole. -/
def nameChars (before : Option Char) (n : Nat) : List Char → List Char × Nat
  | [] => ([], n)
  | c :: cs =>
    if c = '_' && standsAlone before cs.head? then
      let (cs, n') := nameChars (some c) (n + 1) cs
      ((name n).toList ++ cs, n')
    else
      let (cs, n') := nameChars (some c) n cs
      (c :: cs, n')

/-- Names the holes of a text. Gives the text and their number. -/
def nameAll (text : String) : String × Nat :=
  let (cs, count) := nameChars none 0 text.toList
  (String.ofList cs, count)

/-- A fresh variable for each name. -/
def issueVars (f : Fresher) : List String → List (String × VarId) × Fresher
  | [] => ([], f)
  | name :: names =>
    let (v, f) := f.fresh
    let (rest, f) := issueVars f names
    ((name, v) :: rest, f)

/-- Puts a fresh variable in place of each of the first `count` hole names, numbered in source order. -/
def fill (f : Fresher) (count : Nat) (t : Ty) : Ty × Fresher :=
  let holes := (List.range count).map name
  let (vars, f) := issueVars f (t.bareNames.filter (holes.contains ·)).eraseDups
  (t.replaceBareNames fun n => (vars.lookup n).map .var, f)

end Generics.Hole
