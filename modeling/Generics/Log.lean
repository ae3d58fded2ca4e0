import Generics.Error
import Generics.Text.Blank
import Generics.Text.Quoted
import Generics.Ty.Printer

/-!
# Log lines

A record is written as one line of `key=value` fields. Records below a warning are only written if they
belong to a section whose logs are wanted.
-/

namespace Generics.Log

open Text

/-- A level by its name and the distance to it. Greater levels are more severe. -/
def levelName (level : Int) : String :=
  let named (name : String) (offset : Int) : String :=
    if offset = 0 then name else if 0 < offset then s!"{name}+{offset}" else s!"{name}{offset}"
  if level < 0 then named "DEBUG" (level + 4)
  else if level < 4 then named "INFO" level
  else if level < 8 then named "WARN" (level - 4)
  else named "ERROR" (level - 8)

/-- The level from which on records of all sections are written. -/
def warning : Int := 4

/-- A character that can only be written in quotes. A backslash needs none. -/
def isSpecial (c : Char) : Bool :=
  if c.toNat < 0x80 then c = ' ' || c = '=' || c = '"' || c.toNat < 0x20
  else c = '\ufffd' || isBlank c || !isPrintable c

/-- A key or a value. It is put into quotes if it is empty or has a special character. -/
def word (s : String) : String := if s = "" || s.toList.any isSpecial then quote s else s

/-- A field of a line. -/
def field (key value : String) : String := word key ++ "=" ++ word value

/-- The value of an attribute. -/
inductive Value where
  | text (s : String)
  | number (n : Int)
  | type (t : Ty)
  /-- A type that is only rendered if the record is written. It may be absent. -/
  | lazy (t : Option Ty)
  | types (ts : List Ty)
  /-- Errors, each of them in a group of its own. -/
  | errors (es : List Error)

namespace Value

/-- The value in one word, except that errors are a group of fields. Handlers that know about types put
commas into lists of them. -/
def render (typed : Bool) : Value → String
  | text s => s
  | number n => toString n
  | type t => t.render
  | lazy none => "<nil>"
  | lazy (some t) => t.render
  | types ts =>
    if typed then "[" ++ Ty.renderList ts ++ "]" else "[" ++ " ".intercalate (ts.map Ty.render) ++ "]"
  | errors es => " ".intercalate (es.map Error.labelled)

/-- The section that the value names. An absent type and errors name the empty one. -/
def sectionName (typed : Bool) : Value → String
  | lazy none | errors _ => ""
  | v => v.render typed

end Value

/-- An attribute of a record. -/
structure Attr where
  key : String
  value : Value

namespace Attr

/-- The fields of an attribute whose keys start with `path`. Times are left out. -/
def fields (typed : Bool) (path : String) (a : Attr) : List String :=
  match a.value with
  | .errors es =>
    let path := if a.key = "" then path else path ++ a.key ++ "."
    es.zipIdx.map fun (e, i) => field s!"{path}e{i}.msg" e.labelled
  | v => if a.key = "time" then [] else [field (path ++ a.key) (v.render typed)]

/-- The section that the attribute names. -/
def namedSection? (typed : Bool) (a : Attr) : Option String :=
  if a.key = "section" then some (a.value.sectionName typed) else none

end Attr

/-- What is written. -/
structure Settings where
  /-- The least level. -/
  least : Int
  /-- The sections whose records below a warning are written. -/
  sections : List String := ["check", "region"]

namespace Settings

/-- Adds sections that are not among the others. -/
def enable (s : Settings) (sections : List String) : Settings :=
  { s with sections := sections.foldl (fun all x => if all.contains x then all else all ++ [x]) s.sections }

/-- Records of the level may be written. -/
def enabled (s : Settings) (level : Int) : Bool := s.least ≤ level

/-- The records of the section are wanted: its name starts with that of an enabled one. -/
def wants (s : Settings) (name : String) : Bool :=
  s.sections.any fun wanted => wanted.toList.isPrefixOf name.toList

end Settings

/-- Writes records with attributes in common. -/
structure Logger where
  /-- The section that all records belong to. -/
  within : Option String := none
  /-- Types are known to the logger, and lists of them are shown as such. -/
  typed : Bool := false
  attrs : List Attr := []
  /-- The group that the attributes of records are put into, if it has a name. -/
  group : String := ""

/-- A record to be written. -/
structure Record where
  level : Int
  message : String
  attrs : List Attr := []

namespace Logger

/-- The record belongs to a section that is wanted, or is a warning. -/
def admits (l : Logger) (s : Settings) (r : Record) : Bool :=
  warning ≤ r.level || l.within.any s.wants ||
    (l.attrs ++ r.attrs).any fun a => (a.namedSection? l.typed).any s.wants

/-- The fields of a record in order. -/
def fields (l : Logger) (r : Record) : List String :=
  let path := if l.group = "" then "" else l.group ++ "."
  [field "level" (levelName r.level), field "msg" r.message] ++
    l.within.toList.map (field "section") ++
    l.attrs.flatMap (Attr.fields l.typed "") ++ r.attrs.flatMap (Attr.fields l.typed path)

/-- The line of a record, if it is written. -/
def line? (l : Logger) (s : Settings) (r : Record) : Option String :=
  if s.enabled r.level && l.admits s r then some (" ".intercalate (l.fields r) ++ "\n") else none

end Logger

end Generics.Log
