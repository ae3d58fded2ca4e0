import Generics.Text.Csv
import Generics.Text.Numeral
import Generics.Text.Quoted

/-!
# Options of the command line

Flags may stand anywhere among the paths, up to an argument `--`. A flag is written `--name=value` or
`--name value`, or with its letter as `-lvalue`, `-l=value` or `-l value`. Flags without a value can share
one dash.
-/

namespace Generics.Command

open Text

/-- A flag of the check command. -/
inductive Flag where
  | color
  | help
  | logLevel
  | logSection
deriving DecidableEq, Repr

namespace Flag

/-- All flags by name. -/
def all : List Flag := [color, help, logLevel, logSection]

/-- The name that follows two dashes. -/
def name : Flag → String
  | color => "color"
  | help => "help"
  | logLevel => "log-level"
  | logSection => "log-section"

/-- The letter that follows one dash. -/
def letter? : Flag → Option Char
  | help => some 'h'
  | logLevel => some 'l'
  | _ => none

/-- The value of a flag that stands without one. -/
def implied? : Flag → Option String
  | help => some "true"
  | _ => none

/-- The flag in problems and in the help text. -/
def shown (f : Flag) : String :=
  match f.letter? with
  | some c => s!"-{c}, --{f.name}"
  | none => s!"--{f.name}"

/-- What kind of value follows the flag. -/
def kind : Flag → String
  | color => " string"
  | help => ""
  | logLevel => " int"
  | logSection => " strings"

/-- What the flag is for. -/
def usage : Flag → String
  | color => "colorize output: auto, always or never (default \"auto\")"
  | help => "help for check"
  | logLevel => "log level (default 8)"
  | logSection => "sections whose debug logs are printed, like capability or region"

end Flag

/-- What a run of the check command is asked to do. -/
structure Options where
  color : String := "auto"
  help : Bool := false
  logLevel : Int := 8
  logSections : List String := []
  paths : List String := []

/-- Why arguments cannot be understood. -/
inductive OptionsError where
  /-- Something other than a name follows two dashes. -/
  | badFlag (arg : String)
  | unknownFlag (name : String)
  /-- A letter of the letters that are left after a dash is no flag. -/
  | unknownLetter (letter : Char) (letters : List Char)
  | missingValue (arg : String)
  | missingLetterValue (letter : Char) (letters : List Char)
  | badValue (flag : Flag) (value problem : String)

/-- A character in single quotes. -/
def quoteLetter (c : Char) : String :=
  if c = '\'' || c = '\\' then s!"'\\{c}'" else s!"'{c}'"

/-- The wording of an error. -/
def OptionsError.message : OptionsError → String
  | badFlag arg => s!"bad flag syntax: {arg}"
  | unknownFlag name => s!"unknown flag: --{name}"
  | unknownLetter c cs =>
    "unknown shorthand flag: " ++ quoteLetter c ++ " in -" ++ String.ofList cs
  | missingValue arg => s!"flag needs an argument: {arg}"
  | missingLetterValue c cs =>
    "flag needs an argument: " ++ quoteLetter c ++ " in -" ++ String.ofList cs
  | badValue flag value problem =>
    s!"invalid argument {quote value} for {quote flag.shown} flag: {problem}"

namespace Options

/-- The problem of a value that cannot be read. -/
def unreadable (reader value reason : String) : String :=
  s!"strconv.{reader}: parsing {quote value}: {reason}"

/-- Reads a truth value. -/
def readBool (s : String) : Except String Bool :=
  if ["1", "t", "T", "TRUE", "true", "True"].contains s then .ok true
  else if ["0", "f", "F", "FALSE", "false", "False"].contains s then .ok false
  else .error (unreadable "ParseBool" s "invalid syntax")

/-- Reads a level. -/
def readLevel (s : String) : Except String Int :=
  match Numeral.signed s.toList with
  | .ok n => .ok n
  | .error .malformed => .error (unreadable "ParseInt" s "invalid syntax")
  | .error .outOfRange => .error (unreadable "ParseInt" s "value out of range")

/-- Reads sections. -/
def readSections (s : String) : Except String (List String) :=
  match Csv.values s with
  | .ok sections => .ok sections
  | .error e => .error e.message

/-- Gives a flag its value. Sections add up; of the others the last one counts. -/
def set (o : Options) (f : Flag) (value : String) : Except OptionsError Options :=
  let outcome : Except String Options := do
    match f with
    | .color => return { o with color := value }
    | .help => return { o with help := ← readBool value }
    | .logLevel => return { o with logLevel := ← readLevel value }
    | .logSection => return { o with logSections := o.logSections ++ (← readSections value) }
  match outcome with
  | .ok o => .ok o
  | .error problem => .error (.badValue f value problem)

/-- Reads what follows two dashes, and says whether it took the next argument for its value. -/
def long (o : Options) (cs : List Char) (next : Option String) : Except OptionsError (Options × Bool) :=
  let arg := "--" ++ String.ofList cs
  match cs with
  | [] | '-' :: _ | '=' :: _ => .error (.badFlag arg)
  | cs =>
    let name := String.ofList (cs.takeWhile (· ≠ '='))
    match Flag.all.find? fun f => f.name = name with
    | none => .error (.unknownFlag name)
    | some f =>
      match cs.dropWhile (· ≠ '='), f.implied?, next with
      | _ :: value, _, _ => (·, false) <$> o.set f (String.ofList value)
      | [], some value, _ => (·, false) <$> o.set f value
      | [], none, some value => (·, true) <$> o.set f value
      | [], none, none => .error (.missingValue arg)

/-- The character of a letter's first byte, by which unknown letters are named. -/
def byteOf (c : Char) : Char :=
  match String.utf8EncodeChar c with
  | b :: _ => Char.ofNat b.toNat
  | [] => c

/-- Reads what follows one dash, and says whether it took the next argument for its value. -/
def letters (o : Options) (next : Option String) : List Char → Except OptionsError (Options × Bool)
  | [] => .ok (o, false)
  | c :: cs =>
    match Flag.all.find? fun f => f.letter? = some c with
    | none => .error (.unknownLetter (byteOf c) (c :: cs))
    | some f =>
      match cs, f.implied?, next with
      | '=' :: d :: value, _, _ => (·, false) <$> o.set f (String.ofList (d :: value))
      | cs, some value, _ => do (← o.set f value).letters next cs
      | d :: value, none, _ => (·, false) <$> o.set f (String.ofList (d :: value))
      | [], none, some value => (·, true) <$> o.set f value
      | [], none, none => .error (.missingLetterValue c (c :: cs))

/-- Reads arguments. -/
def read (o : Options) : List String → Except OptionsError Options
  | [] => .ok o
  | arg :: args => do
    match arg.toList with
    | ['-', '-'] => .ok { o with paths := o.paths ++ args }
    | '-' :: '-' :: cs =>
      let (o, taken) ← o.long cs args.head?
      if taken then o.read args.tail else o.read args
    | '-' :: c :: cs =>
      let (o, taken) ← o.letters args.head? (c :: cs)
      if taken then o.read args.tail else o.read args
    | _ => read { o with paths := o.paths ++ [arg] } args
termination_by args => args.length
decreasing_by all_goals (simp only [List.length_cons, List.length_tail]; omega)

end Options

/-- What the help flag prints. -/
def helpText : String :=
  let heads := Flag.all.map fun f =>
    let head := (if f.letter?.isSome then "  " else "      ") ++ f.shown ++ f.kind
    (head, f.usage)
  let width := (heads.map fun h => h.1.length).foldl max 0
  let rows := heads.map fun (head, usage) =>
    head ++ String.ofList (List.replicate (width + 3 - head.length) ' ') ++ usage ++ "\n"
  "Check the units of declaration manifests\n\nUsage:\n  check manifest.yaml... [flags]\n\nFlags:\n" ++
    String.join rows

end Generics.Command
