import Generics.Manifest.Report

/-!
# Reports as texts

A report is shown unit by unit, with all diagnostics at the end.
-/

namespace Generics

/-- How a piece of text stands out on a terminal. -/
inductive Style where
  | bold
  | red
  | green

/-- A text in a style, if styles are wanted. -/
def Style.paint (style : Style) (color : Bool) (s : String) : String :=
  let code := match style with
    | bold => "1"
    | red => "31"
    | green => "32"
  if color then "\x1b[" ++ code ++ "m" ++ s ++ "\x1b[0m" else s

/-- What a session found out, a line for each thing. -/
def SessionResult.lines (color : Bool) (r : SessionResult) : List String :=
  (r.bindings.map fun b => s!"  {b.name}: {b.type.render}") ++
  (r.verdicts.map fun v =>
    let status := if v.passed then Style.green.paint color "ok  " else Style.red.paint color "fail"
    s!"  {status} {v.origin.construct}") ++
  (r.signatures.map fun c => s!"  {c.origin.construct}: {c.function.render}") ++
  (r.instances.map fun i => s!"  {i.origin.construct}: {i.id}")

/-- The lines of a report. -/
def Report.lines (color : Bool) (r : Report) : List String :=
  let errors := r.diagnostics
  let units := r.units.flatMap fun (name, result) => s!"unit {name}" :: result.lines color
  let trailer := if errors.isEmpty then [] else
    Style.red.paint color s!"{errors.length} errors:" :: errors.map fun d => "  " ++ r.format d
  Style.bold.paint color r.path :: units ++ trailer

/-- The text of a report. -/
def Report.render (color : Bool) (r : Report) : String :=
  String.join ((r.lines color).map (· ++ "\n"))

end Generics
