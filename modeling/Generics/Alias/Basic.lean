import Generics.Alias.Words
import Generics.Error
import Generics.Ty.Expand
import Generics.Ty.Parser
import Generics.Ty.Printer

/-!
# Type aliases

An alias gives a name to the text of a type, possibly with parameters. Expanding a type replaces every
alias in it until none is left, or until more aliases have been entered one inside the other than the
limit allows.
-/

namespace Generics

open Text

/-- A declared alias. Its target is read only after arguments are put in. -/
structure TypeAlias where
  name : String
  params : List String
  target : String
deriving DecidableEq, Repr

namespace TypeAlias

/-- The alias has parameters. -/
def isGeneric (a : TypeAlias) : Bool := !a.params.isEmpty

/-- The name with a list of arguments after it. -/
def applied (name : String) (args : List String) : String :=
  let list := ", ".intercalate args
  s!"{name}<{list}>"

/-- The use of an alias without the arguments it needs. -/
def missingArguments (a : TypeAlias) : Error :=
  .typeMismatch (applied a.name a.params) a.name "use of generic alias without arguments"

/-- The use of an alias with a wrong number of arguments. -/
def wrongArguments (a : TypeAlias) (args : List String) : Error :=
  .typeMismatch (applied a.name a.params) (applied a.name args) "generic alias arguments"

/-- The target with arguments in place of the parameters. -/
def instantiate (a : TypeAlias) (args : List String) : String :=
  if args.isEmpty then a.target else Alias.substitute a.target a.params args

end TypeAlias

/-- The aliases of a program, and how deep they may be nested. -/
structure AliasTable where
  aliases : List TypeAlias
  maxDepth : Int

namespace AliasTable

/-- The alias with the name. -/
def find? (t : AliasTable) (name : String) : Option TypeAlias :=
  t.aliases.find? fun a => a.name = name

/-- Adds an alias. Its name and target are trimmed and may not be empty, its name may not be taken,
and its target may not mention it. -/
def declare (t : AliasTable) (a : TypeAlias) : Except Error AliasTable :=
  let a := { a with name := trim a.name, target := trim a.target }
  if a.name = "" then .error (.invalidAlias a.name "alias name is empty")
  else if a.target = "" then .error (.invalidAlias a.name "alias target is empty")
  else if (t.find? a.name).isSome then .error (.invalidAlias a.name "alias is already defined")
  else if Alias.mentions a.target a.name then .error (.cyclicAlias a.name)
  else .ok { t with aliases := t.aliases ++ [a] }

/-! ## One level of expansion

`enter` says what becomes of the target of an alias. -/

/-- The meaning of an alias used by its name alone. -/
def bare (t : AliasTable) (enter : (name target : String) → Except Error Ty) (name : String) :
    Except Error Ty :=
  match t.find? name with
  | none => .error (.aliasNotFound name)
  | some a => if a.isGeneric then .error a.missingArguments else enter name a.target

/-- The meaning of an alias applied to arguments. -/
def application (t : AliasTable) (enter : (name target : String) → Except Error Ty) (name : String)
    (args : List String) : Except Error Ty :=
  match t.find? name with
  | none => .error (.aliasNotFound name)
  | some a =>
    if args.length ≠ a.params.length then .error (a.wrongArguments args)
    else enter name (a.instantiate args)

/-- The type that replaces a name inside a type, if the name is an alias. Region arguments count as
arguments of the alias. -/
def nested (t : AliasTable) (enter : (name target : String) → Except Error Ty) (name : String)
    (regions : List Region) (args : List Ty) : Except Error (Option Ty) :=
  if (t.find? name).isNone then .ok none
  else if regions.isEmpty && args.isEmpty then some <$> t.bare enter name
  else some <$> t.application enter name (regions.map Region.name ++ args.map Ty.render)

/-- Expands a text that is not an applied alias: the bare name of one, or a type with aliases in it. -/
def expandUnapplied (t : AliasTable) (enter : (name target : String) → Except Error Ty)
    (text : String) : Except Error Ty :=
  if (t.find? text).isSome then t.bare enter text
  else do
    let parsed ← Ty.parse text
    parsed.expandNames (t.nested enter)

/-- Expands a text. -/
def expandWith (t : AliasTable) (enter : (name target : String) → Except Error Ty) (text : String) :
    Except Error Ty :=
  match Alias.splitApplication text with
  | some (head, args) =>
    if (t.find? head).isSome then t.application enter head args else t.expandUnapplied enter text
  | none => t.expandUnapplied enter text

/-! ## Expansion to the end -/

/-- The aliases entered so far leave no room for another. -/
def tooDeep (t : AliasTable) (chain : List String) (name : String) : Error :=
  .recursionDepthExceeded (chain.headD name) t.maxDepth (chain ++ [name])

/-- What becomes of a target when `left` more aliases may be entered after those of the chain. -/
def enter (t : AliasTable) : (left : Nat) → (chain : List String) → (name target : String) →
    Except Error Ty
  | 0, chain, name, _ => .error (t.tooDeep chain name)
  | left + 1, chain, name, target => t.expandWith (t.enter left (chain ++ [name])) target

/-- How many aliases may be entered one inside the other. -/
def room (t : AliasTable) : Nat := t.maxDepth.toNat

/-- The type that a bare alias name stands for. -/
def resolve (t : AliasTable) (name : String) : Except Error Ty := t.bare (t.enter t.room []) name

/-- The type that an applied alias stands for. -/
def resolveGeneric (t : AliasTable) (name : String) (args : List String) : Except Error Ty :=
  t.application (t.enter t.room []) name args

/-- The type that a text stands for. -/
def expand (t : AliasTable) (text : String) : Except Error Ty := t.expandWith (t.enter t.room []) text

end AliasTable

end Generics
