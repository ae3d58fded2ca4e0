import Generics.Alias.Basic

/-!
# Remembered expansions

Answers, failures included, are remembered until another alias is declared. All of them are kept in one
place under the text of what was asked. An applied alias is remembered under its written form. A word in
front of the text keeps the kinds of queries apart.
-/

namespace Generics

open Text

/-- What is asked about aliases. -/
inductive AliasQuery where
  | resolve (name : String)
  /-- An applied alias as it would be written. -/
  | generic (written : String)
  | expand (text : String)
deriving DecidableEq, Repr

/-- The text that the answer is remembered under. -/
def AliasQuery.key : AliasQuery → String
  | .resolve name => "resolve:" ++ name
  | .generic written => "generic:" ++ written
  | .expand text => "expand:" ++ text

/-- Different queries are remembered apart, whatever their texts. -/
theorem AliasQuery.key_injective {q q' : AliasQuery} (h : q.key = q'.key) : q = q' := by
  have hchars : q.key.toList = q'.key.toList := congrArg String.toList h
  simp only [key] at hchars
  cases q <;> cases q' <;> simp only [String.toList_append] at hchars
  case resolve.resolve => exact congrArg resolve (String.toList_inj.mp (List.append_cancel_left hchars))
  case generic.generic => exact congrArg generic (String.toList_inj.mp (List.append_cancel_left hchars))
  case expand.expand => exact congrArg expand (String.toList_inj.mp (List.append_cancel_left hchars))
  -- queries of two kinds differ in the first letter
  all_goals simp at hchars

/-- The aliases of a program and the answers given since the last declaration. -/
structure Aliases where
  table : AliasTable
  cache : List (String × Except Error Ty)

namespace Aliases

/-- No aliases, and the given limit on nesting. -/
def withMaxDepth (maxDepth : Int) : Aliases := ⟨⟨[], maxDepth⟩, []⟩

/-- No aliases, which may be nested 32 deep. -/
def empty : Aliases := withMaxDepth 32

/-- Declares an alias and forgets all answers, or fails and changes nothing. -/
def declare (n : Aliases) (a : TypeAlias) : Aliases × Except Error Unit :=
  match n.table.declare a with
  | .ok table => (⟨table, []⟩, .ok ())
  | .error e => (n, .error e)

/-- Gives the remembered answer to a query, or works it out and remembers it. -/
def answer (n : Aliases) (query : AliasQuery) (work : Except Error Ty) :
    Aliases × Except Error Ty :=
  match n.cache.lookup query.key with
  | some result => (n, result)
  | none => ({ n with cache := (query.key, work) :: n.cache }, work)

/-- The type that a bare alias name stands for. -/
def resolve (n : Aliases) (name : String) : Aliases × Except Error Ty :=
  n.answer (.resolve name) (n.table.resolve name)

/-- The type that an applied alias stands for. -/
def resolveGeneric (n : Aliases) (name : String) (args : List String) : Aliases × Except Error Ty :=
  n.answer (.generic (TypeAlias.applied name args)) (n.table.resolveGeneric name args)

/-- The type that a text stands for. -/
def expand (n : Aliases) (text : String) : Aliases × Except Error Ty :=
  let text := trim text
  n.answer (.expand text) (n.table.expand text)

end Aliases

end Generics
