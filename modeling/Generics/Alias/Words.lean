import Generics.Text.Ident
import Generics.Text.Join
import Generics.Text.Split

/-!
# Words of an alias target

A target is kept as text. Parameters are put in word by word: a word is a run of letters, digits,
underscores and colons, and a region such as `'a` is not a word, so a parameter `a` leaves it alone.
-/

namespace Generics.Alias

open Text

/-- A piece of a target. -/
inductive Segment where
  | word (chars : List Char)
  /-- A region, or a character between words. -/
  | other (chars : List Char)
deriving DecidableEq, Repr

/-- A character that goes on in a word. -/
def isWordChar (c : Char) : Bool := isIdentChar c || c = ':'

/-- The words of a text and what stands between them. -/
def segments : List Char → List Segment
  | [] => []
  | c :: cs =>
    if c = '\'' then .other (c :: cs.takeWhile isIdentChar) :: segments (cs.dropWhile isIdentChar)
    else if isIdentChar c then
      .word (c :: cs.takeWhile isWordChar) :: segments (cs.dropWhile isWordChar)
    else .other [c] :: segments cs
termination_by cs => cs.length
decreasing_by
  · have := (List.dropWhile_sublist isIdentChar (l := cs)).length_le
    simp only [List.length_cons]
    omega
  · have := (List.dropWhile_sublist isWordChar (l := cs)).length_le
    simp only [List.length_cons]
    omega
  · simp

/-- The name stands in the text as a whole word. -/
def mentions (text name : String) : Bool := (segments text.toList).contains (.word name.toList)

/-- A character that can start a path. -/
def isPathStart (c : Char) : Bool := c = '_' || c = ':' || isLetter c

/-- A character that can go on in a path. -/
def isPathChar (c : Char) : Bool := isPathStart c || isDigit c

/-- A path: letters, underscores and colons, and digits after the first character. -/
def isPath : List Char → Bool
  | [] => false
  | c :: cs => isPathStart c && cs.all isPathChar

/-- A run of digits of any script. -/
def isDigits (cs : List Char) : Bool := !cs.isEmpty && cs.all isDigit

/-- An argument as it is put in for a parameter: in parentheses, unless it is a path or a number. -/
def inserted (arg : String) : List Char :=
  if isPath arg.toList || isDigits arg.toList then arg.toList else '(' :: arg.toList ++ [')']

/-- The argument for a parameter; of two parameters with one name the later counts. -/
def argument? (params args : List String) (word : List Char) : Option String :=
  (params.zip args).reverse.lookup (String.ofList word)

/-- A piece of a target with its parameter put in. -/
def Segment.fill (params args : List String) : Segment → List Char
  | .word w =>
    match argument? params args w with
    | some arg => inserted arg
    | none => w
  | .other cs => cs

/-- The text with arguments in place of parameters. What is put in is not looked at again. -/
def substitute (text : String) (params args : List String) : String :=
  String.ofList ((segments text.toList).flatMap (Segment.fill params args))

/-- Splits `Name<A, B>` into the name and its arguments. -/
def splitApplicationChars (cs : List Char) : Option (List Char × List (List Char)) :=
  let head := trimChars (cs.takeWhile (· ≠ '<'))
  match cs.dropWhile (· ≠ '<') with
  | [] => none
  | _ :: rest =>
    if rest.getLast? = some '>' ∧ isPath head then
      let inner := trimChars rest.dropLast
      some (head, if inner.isEmpty then [] else splitTopLevelChars ',' inner)
    else none

/-- Splits `Name<A, B>` into the name and its arguments. -/
def splitApplication (text : String) : Option (String × List String) :=
  (splitApplicationChars text.toList).map fun (head, args) =>
    (String.ofList head, args.map String.ofList)

end Generics.Alias
