import Generics.Text.Decimal
import Generics.Text.Hash
import Generics.Text.Join
import Generics.Ty.Basic

/-!
# Printed types

A type in surface syntax. Region arguments stand before type arguments, an elided region argument is
written `'_`, an elided region of a reference is left out, and a function that returns unit is
written without an arrow.
-/

namespace Generics

/-- A region in the list of arguments of a name, where an elided one is written `'_`. -/
def Region.argChars (r : Region) : List Char :=
  if r.isElided then ['\'', '_'] else r.name.toList

namespace Ty

open Text

mutual

/-- The type in surface syntax. -/
def chars : Ty → List Char
  | .prim name => name.toList
  | .var id => '?' :: decimal id.toNat
  | .tuple elems =>
    match charsList elems with
    | [part] => '(' :: part ++ [',', ')']
    | parts => '(' :: commaSep parts ++ [')']
  | .array elem size => '[' :: elem.chars ++ [';', ' '] ++ decimal size.toNat ++ [']']
  | .ref region isMut inner =>
    '&' :: (if region.isElided then [] else region.name.toList ++ [' ']) ++
      (if isMut then ['m', 'u', 't', ' '] else []) ++ inner.chars
  | .ptr true inner => ['*', 'm', 'u', 't', ' '] ++ inner.chars
  | .ptr false inner => ['*', 'c', 'o', 'n', 's', 't', ' '] ++ inner.chars
  | .fn params none => ['f', 'n', '('] ++ commaSep (charsList params) ++ [')']
  | .fn params (some ret) =>
    ['f', 'n', '('] ++ commaSep (charsList params) ++ [')'] ++
      (if ret.isUnit then [] else [' ', '-', '>', ' '] ++ ret.chars)
  | .named name regions args =>
    match regions.map Region.argChars ++ charsList args with
    | [] => name.toList
    | parts => name.toList ++ '<' :: commaSep parts ++ ['>']

/-- Each type of a list in surface syntax. -/
def charsList : List Ty → List (List Char)
  | [] => []
  | t :: ts => t.chars :: charsList ts

end

/-- The type in surface syntax. -/
def render (t : Ty) : String := String.ofList t.chars

instance : ToString Ty := ⟨render⟩

/-- Types in surface syntax with a comma and a space between each two. -/
def renderList (ts : List Ty) : String := String.ofList (commaSep (charsList ts))

/-- The hash of the printed type. -/
def hash (t : Ty) : UInt64 := Text.hash t.render

@[simp] theorem charsList_eq_map (ts : List Ty) : charsList ts = ts.map chars := by
  induction ts with
  | nil => rfl
  | cons t ts ih => simp [charsList, ih]

@[simp] theorem toList_render (t : Ty) : t.render.toList = t.chars := String.toList_ofList

end Ty

end Generics
