/-!
# Comma-separated values

A list in one text. A value that starts with a quote ends with the next quote that stands alone; between
them a comma belongs to the value and two quotes stand for one.
-/

namespace Generics.Text

/-- Why a text is no list. Columns count bytes from 1. -/
inductive CsvError where
  /-- A value without quotes has one inside. -/
  | bareQuote (column : Nat)
  /-- A quote inside a value in quotes is not doubled, or the last one is missing. -/
  | strayQuote (column : Nat)
deriving DecidableEq, Repr

/-- The wording of an error. -/
def CsvError.message : CsvError → String
  | bareQuote column => s!"parse error on line 1, column {column}: bare \" in non-quoted field"
  | strayQuote column =>
    s!"parse error on line 1, column {column}: extraneous or missing \" in quoted-field"

namespace Csv

/-- Where in a value a reader stands. -/
inductive Place where
  | start
  | plain
  | quoted
  /-- After a quote in a value in quotes. -/
  | closing

/-- Reads on from a column in a value that is known up to there. -/
def read (place : Place) (column : Nat) (value : List Char) :
    List Char → Except CsvError (List String)
  | [] =>
    match place with
    | .quoted => .error (.strayQuote column)
    | _ => .ok [String.ofList value]
  | c :: cs =>
    match place, c with
    | .start, '"' => read .quoted (column + 1) [] cs
    | .quoted, '"' => read .closing (column + 1) value cs
    | .quoted, c => read .quoted (column + c.utf8Size) (value ++ [c]) cs
    | .closing, '"' => read .quoted (column + 1) (value ++ ['"']) cs
    | _, ',' => (String.ofList value :: ·) <$> read .start (column + 1) [] cs
    | .closing, _ => .error (.strayQuote (column - 1))
    | _, '"' => .error (.bareQuote column)
    | _, c => read .plain (column + c.utf8Size) (value ++ [c]) cs

/-- The values of a list. An empty text holds none. -/
def values (s : String) : Except CsvError (List String) :=
  if s = "" then .ok [] else read .start 1 [] s.toList

end Csv

end Generics.Text
