import Generics.Manifest.Decl
import Generics.Yaml.Node

/-!
# Manifests as documents

A manifest is a mapping; so is each of its declarations. A key that is not known is ignored with its
value, a key that is left out or stands for nothing leaves its field empty, and a key given twice makes
the document malformed. Of a sequence, items that stand for nothing are dropped.
-/

namespace Generics

namespace Yaml.Node

/-- The text of a scalar. -/
def text? (n : Node) : Option String :=
  if n.isNull then some ""
  else match n with
    | scalar _ text _ => some text
    | _ => none

/-- The items of a sequence, each read by `f`. -/
def list? {α : Type} (f : Node → Option α) (n : Node) : Option (List α) :=
  if n.isNull then some []
  else match n with
    | seq _ items => (items.filter fun item => !item.isNull).mapM f
    | _ => none

/-- The text of a key. -/
def keyText? : Node → Option String
  | scalar _ text _ => some text
  | _ => none

/-- The entries of a mapping by their keys, without those whose key stands for nothing. -/
def fields? (n : Node) : Option (List (String × Node)) :=
  if n.isNull then some []
  else match n with
    | map _ entries => do
      let keys ← entries.mapM fun e => e.1.keyText?
      if keys.Nodup then
        return (keys.zip entries).filterMap fun (key, k, v) => if k.isNull then none else some (key, v)
      else none
    | _ => none

/-- A mapping from texts to texts. -/
def texts? (n : Node) : Option (List (String × String)) := do
  (← n.fields?).mapM fun (key, v) => do return (key, ← v.text?)

/-- A node read by `f`, with its place. -/
def located? {α : Type} (f : Node → Option α) (n : Node) : Option (Located α) := do
  return ⟨← f n, n.pos⟩

end Yaml.Node

namespace ManifestDecl

open Yaml

/-- The entries of a mapping by their keys. -/
abbrev Fields := List (String × Node)

/-- The value of a key read by `f`, or else `absent`. -/
def Fields.get {α : Type} (fs : Fields) (key : String) (absent : α) (f : Node → Option α) : Option α :=
  match fs.lookup key with
  | none => some absent
  | some n => f n

/-- The text of a key. -/
def Fields.text (fs : Fields) (key : String) : Option String := Fields.get fs key "" Node.text?

/-- The sequence of a key. -/
def Fields.list {α : Type} (fs : Fields) (key : String) (f : Node → Option α) : Option (List α) :=
  Fields.get fs key [] (Node.list? f)

/-- The sequence of texts of a key. -/
def Fields.textList (fs : Fields) (key : String) : Option (List String) := Fields.list fs key Node.text?

/-- The mapping from texts to texts of a key. -/
def Fields.texts (fs : Fields) (key : String) : Option (List (String × String)) :=
  Fields.get fs key [] Node.texts?

/-- Reads a type parameter. -/
def param? (n : Node) : Option ParamDecl := do
  let fs ← n.fields?
  return { name := ← Fields.text fs "name", variance := ← Fields.text fs "variance"
           bounds := ← Fields.textList fs "bounds", default := ← Fields.text fs "default" }

/-- Reads a capability. -/
def capability? (n : Node) : Option CapabilityDecl := do
  let fs ← n.fields?
  return { name := ← Fields.text fs "name", params := ← Fields.list fs "params" param?
           associated := ← Fields.textList fs "associated"
           supertraits := ← Fields.textList fs "supertraits", methods := ← Fields.texts fs "methods" }

/-- Reads a condition. -/
def clause? (n : Node) : Option WhereDecl := do
  let fs ← n.fields?
  return { type := ← Fields.text fs "type", bounds := ← Fields.textList fs "bounds" }

/-- Reads an implementation. -/
def implementation? (n : Node) : Option ImplementationDecl := do
  let fs ← n.fields?
  return { capability := ← Fields.text fs "capability", type := ← Fields.text fs "type"
           args := ← Fields.textList fs "args", clauses := ← Fields.list fs "where" clause?
           associated := ← Fields.texts fs "associated" }

/-- Reads an alias. -/
def alias? (n : Node) : Option TypeAlias := do
  let fs ← n.fields?
  return { name := ← Fields.text fs "name", params := ← Fields.textList fs "params"
           target := ← Fields.text fs "target" }

/-- Reads a const parameter. -/
def constParam? (n : Node) : Option ConstParamDecl := do
  let fs ← n.fields?
  return { name := ← Fields.text fs "name", type := ← Fields.text fs "type"
           default := ← Fields.text fs "default" }

/-- Reads the const parameters of an item. -/
def const? (n : Node) : Option ConstDecl := do
  let fs ← n.fields?
  return { owner := ← Fields.text fs "owner", params := ← Fields.list fs "params" constParam? }

/-- Reads a region parameter. -/
def region? (n : Node) : Option RegionDecl := do
  let fs ← n.fields?
  return { name := ← Fields.text fs "name", bounds := ← Fields.textList fs "bounds" }

/-- Reads a step. -/
def step? (n : Node) : Option StepDecl := do
  let fs ← n.fields?
  return { letName := ← Fields.text fs "let", type := ← Fields.text fs "type"
           unify := ← Fields.textList fs "unify", require := ← Fields.text fs "require"
           bounds := ← Fields.textList fs "bounds", project := ← Fields.text fs "project"
           capability := ← Fields.text fs "capability", item := ← Fields.text fs "item"
           bindAs := ← Fields.text fs "as", signature := ← Fields.text fs "signature"
           receiver := ← Fields.text fs "receiver", params := ← Fields.textList fs "params"
           ret := ← Fields.text fs "ret", regions := ← Fields.list fs "regions" region?
           constraints := ← Fields.textList fs "constraints"
           instantiate := ← Fields.text fs "instantiate", args := ← Fields.texts fs "args" }

/-- Reads a unit. -/
def unit? (n : Node) : Option UnitDecl := do
  let fs ← n.fields?
  return { name := ← Fields.text fs "name", steps := ← Fields.list fs "steps" (Node.located? step?) }

/-- Reads a manifest from a document. -/
def ofNode? (n : Node) : Option ManifestDecl := do
  let fs ← n.fields?
  return { capabilities := ← Fields.list fs "capabilities" (Node.located? capability?)
           implementations := ← Fields.list fs "impls" (Node.located? implementation?)
           aliases := ← Fields.list fs "aliases" (Node.located? alias?)
           consts := ← Fields.list fs "consts" (Node.located? const?)
           units := ← Fields.list fs "units" unit? }

/-- Reads a manifest from a file. A file without a document is an empty manifest. -/
def parse? (text : String) : Option ManifestDecl := do
  match ← Node.parse? text with
  | none => return {}
  | some n => ofNode? n

end ManifestDecl

end Generics
