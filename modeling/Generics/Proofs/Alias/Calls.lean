import Generics.Proofs.Alias.Run
import Generics.Proofs.Except

/-!
# Expansion as calls that end

To expand a text is to use an alias, or to read a type and use the aliases in it; to use an alias is to
expand its target with one more alias entered. `AliasTable.Call` is one of these two calls, after the
aliases of a chain were entered. `AliasTable.Run` says what a call returns in terms of the calls that it
makes, and `AliasTable.Calls` says which these are.

Nothing about the texts decreases along the calls, since arguments are put into targets and come back
larger. What decreases is the number of aliases that may still be entered.

## Main results

* `Ty.Offered`: the names that are met first in a type;
* `Ty.expandNames_rel`: how expansions of a type compare that replace these names differently;
* `AliasTable.wellFounded_calls`: no chain of calls is infinite;
* `AliasTable.run_iff`: every call ends, and returns what expansion with the levels that are left does.
-/

namespace Generics

/-- The relation between outcomes is kept by steps in a row. -/
structure StepwiseRel (R : ∀ {α : Type}, Except Error α → Except Error α → Prop) : Prop where
  ok : ∀ {α : Type} (a : α), R (.ok a) (.ok a)
  bind : ∀ {α β : Type} {x y : Except Error α} {f g : α → Except Error β}, R x y →
    (∀ a, R (f a) (g a)) → R (x >>= f) (y >>= g)

/-- Equality is kept by steps in a row. -/
theorem stepwiseRel_eq : StepwiseRel fun {α} (x y : Except Error α) => x = y where
  ok _ := rfl
  bind := by
    intro α β x y f g hxy hfg
    rw [hxy, funext hfg]

namespace Ty

/-- The type is a name in question, with or without arguments. -/
def isNameIn (p : String → Bool) : Ty → Bool
  | .named name _ _ => p name
  | _ => false

/-- The name in question is met in a type from the outside in, before any other. -/
inductive Offered (p : String → Bool) (name : String) (regions : List Region) (args : List Ty) :
    Ty → Prop
  | self (h : p name = true) : Offered p name regions args (.named name regions args)
  | child {t u : Ty} (ht : t.isNameIn p = false) (hu : u ∈ t.children)
      (h : Offered p name regions args u) : Offered p name regions args t

/-- Replaces the names in question. -/
def replacing (p : String → Bool) (f : String → List Region → List Ty → Except Error Ty)
    (name : String) (regions : List Region) (args : List Ty) : Except Error (Option Ty) :=
  if p name then some <$> f name regions args else .ok none

section ExpandNames

variable {R : ∀ {α : Type}, Except Error α → Except Error α → Prop} (hR : StepwiseRel R)
  {p : String → Bool} {f g : String → List Region → List Ty → Except Error Ty}

/-- A name in question is replaced as a whole. -/
theorem expandNames_named_of_pos {name : String} (h : p name = true) (regions : List Region)
    (args : List Ty) :
    (Ty.named name regions args).expandNames (replacing p f) = f name regions args := by
  rw [expandNames, replacing, if_pos h]
  cases f name regions args <;> rfl

/-- Another name stays, and the names in its arguments are replaced. -/
theorem expandNames_named_of_neg {name : String} (h : p name = false) (regions : List Region)
    (args : List Ty) :
    (Ty.named name regions args).expandNames (replacing p f) =
      (do return .named name regions (← expandNamesList (replacing p f) args)) := by
  rw [expandNames, replacing, h]
  rfl

include hR

/-- Replacements that are related at every type of a list are related at the list. -/
theorem expandNamesList_rel {ts : List Ty}
    (h : ∀ t ∈ ts, R (t.expandNames (replacing p f)) (t.expandNames (replacing p g))) :
    R (expandNamesList (replacing p f) ts) (expandNamesList (replacing p g) ts) := by
  induction ts with
  | nil => exact hR.ok []
  | cons t ts ih =>
    obtain ⟨ht, hts⟩ := List.forall_mem_cons.mp h
    rw [expandNamesList, expandNamesList]
    exact hR.bind ht fun _ => hR.bind (ih hts) fun _ => hR.ok _

/-- Two expansions of a type compare as what they make of the names that are offered. -/
theorem expandNames_rel {t : Ty}
    (h : ∀ name regions args, t.Offered p name regions args →
      R (f name regions args) (g name regions args)) :
    R (t.expandNames (replacing p f)) (t.expandNames (replacing p g)) := by
  -- what is offered in a component is offered in the type, unless the type is a name in question
  have hchild {t u : Ty} (ht : t.isNameIn p = false) (hu : u ∈ t.children)
      (h : ∀ name regions args, t.Offered p name regions args →
        R (f name regions args) (g name regions args)) :
      ∀ name regions args, u.Offered p name regions args →
        R (f name regions args) (g name regions args) :=
    fun name regions args hoffered => h name regions args (.child ht hu hoffered)
  induction t with
  | prim name => exact hR.ok _
  | var id => exact hR.ok _
  | tuple elems ih =>
    have helems := expandNamesList_rel hR fun t ht => ih t ht (hchild (t := .tuple elems) rfl ht h)
    rw [expandNames, expandNames]
    exact hR.bind helems fun _ => hR.ok _
  | array elem size ih =>
    rw [expandNames, expandNames]
    exact hR.bind (ih (hchild rfl List.mem_cons_self h)) fun _ => hR.ok _
  | ref region isMut inner ih =>
    rw [expandNames, expandNames]
    exact hR.bind (ih (hchild rfl List.mem_cons_self h)) fun _ => hR.ok _
  | ptr isMut inner ih =>
    rw [expandNames, expandNames]
    exact hR.bind (ih (hchild rfl List.mem_cons_self h)) fun _ => hR.ok _
  | fn params ret ih ihret =>
    have hparams := expandNamesList_rel hR fun t ht =>
      ih t ht (hchild rfl (List.mem_append_left _ ht) h)
    cases ret with
    | none =>
      rw [expandNames, expandNames]
      exact hR.bind hparams fun _ => hR.ok _
    | some ret =>
      have hmem : ret ∈ (Ty.fn params (some ret)).children :=
        List.mem_append_right _ (List.mem_singleton_self ret)
      rw [expandNames, expandNames]
      exact hR.bind hparams fun _ => hR.bind (ihret ret rfl (hchild rfl hmem h)) fun _ => hR.ok _
  | named name regions args ih =>
    cases hname : p name with
    | true =>
      rw [expandNames_named_of_pos hname, expandNames_named_of_pos hname]
      exact h name regions args (.self hname)
    | false =>
      have hargs := expandNamesList_rel hR fun t ht =>
        ih t ht (hchild (t := .named name regions args) hname ht h)
      rw [expandNames_named_of_neg hname, expandNames_named_of_neg hname]
      exact hR.bind hargs fun _ => hR.ok _

end ExpandNames

end Ty

namespace AliasTable

variable (t : AliasTable)

/-! ## What is entered -/

/-- The name is that of an alias. -/
def isAlias (name : String) : Bool := (t.find? name).isSome

/-- The text that is entered when an alias is used by its name alone, or with arguments. -/
def entry (name : String) (args : Option (List String)) : Except Error String :=
  match t.find? name, args with
  | none, _ => .error (.aliasNotFound name)
  | some a, none => if a.isGeneric then .error a.missingArguments else .ok a.target
  | some a, some args =>
    if args.length ≠ a.params.length then .error (a.wrongArguments args) else .ok (a.instantiate args)

/-- The arguments of a name in a type, as they are given to an alias. -/
def givenArgs (regions : List Region) (args : List Ty) : Option (List String) :=
  if regions.isEmpty && args.isEmpty then none
  else some (regions.map Region.name ++ args.map Ty.render)

/-- What a text is to its expansion. -/
inductive Plan where
  /-- It is a use of an alias. -/
  | use (name : String) (args : Option (List String))
  /-- It is a type, in which aliases may be used. -/
  | type (ty : Ty)
  /-- It cannot be read. -/
  | malformed (e : Error)

/-- What a text is that is no applied alias. -/
def planUnapplied (text : String) : Plan :=
  if t.isAlias text then .use text none
  else
    match Ty.parse text with
    | .ok ty => .type ty
    | .error e => .malformed e

/-- What a text is. -/
def plan (text : String) : Plan :=
  match Alias.splitApplication text with
  | some (head, args) => if t.isAlias head then .use head (some args) else t.planUnapplied text
  | none => t.planUnapplied text

/-- Expands a text by its plan, where `use` says what becomes of the use of an alias. -/
def Plan.carryOut (use : String → Option (List String) → Except Error Ty) : Plan → Except Error Ty
  | .use name args => use name args
  | .type ty =>
    ty.expandNames (Ty.replacing t.isAlias fun name regions args => use name (givenArgs regions args))
  | .malformed e => .error e

variable {t} {enter : (name target : String) → Except Error Ty}

/-- The use of a name alone looks the alias up and enters it. -/
theorem bare_eq (name : String) : t.bare enter name = t.entry name none >>= enter name := by
  unfold bare entry
  cases t.find? name with
  | none => rfl
  | some a =>
    by_cases hgeneric : a.isGeneric = true
    · simp only [if_pos hgeneric]
      rfl
    · simp only [if_neg hgeneric]
      rfl

/-- The use of a name with arguments looks the alias up and enters it. -/
theorem application_eq (name : String) (args : List String) :
    t.application enter name args = t.entry name (some args) >>= enter name := by
  unfold application entry
  cases t.find? name with
  | none => rfl
  | some a =>
    by_cases hargs : args.length ≠ a.params.length
    · simp only [if_pos hargs]
      rfl
    · simp only [if_neg hargs]
      rfl

/-- Expansion inside a type looks up and enters each alias that it meets. -/
theorem nested_eq :
    t.nested enter = Ty.replacing t.isAlias fun name regions args =>
      t.entry name (givenArgs regions args) >>= enter name := by
  funext name regions args
  unfold nested Ty.replacing givenArgs isAlias
  cases t.find? name with
  | none => rfl
  | some a =>
    rw [bare_eq, application_eq]
    by_cases hbare : (regions.isEmpty && args.isEmpty) = true
    · simp only [if_pos hbare]
      rfl
    · simp only [if_neg hbare]
      rfl

/-- One level of expansion follows the plan of the text. -/
theorem expandWith_eq (text : String) :
    t.expandWith enter text =
      (t.plan text).carryOut t fun name args => t.entry name args >>= enter name := by
  have hunapplied : t.expandUnapplied enter text =
      (t.planUnapplied text).carryOut t fun name args => t.entry name args >>= enter name := by
    unfold expandUnapplied planUnapplied isAlias
    rw [bare_eq, nested_eq]
    cases (t.find? text).isSome with
    | true => rfl
    | false => cases Ty.parse text <;> rfl
  unfold expandWith plan
  cases Alias.splitApplication text with
  | none => exact hunapplied
  | some p =>
    obtain ⟨head, args⟩ := p
    by_cases hhead : t.isAlias head = true
    · simp only [if_pos hhead]
      exact (if_pos hhead).trans (application_eq head args)
    · simp only [if_neg hhead]
      exact (if_neg hhead).trans hunapplied

/-! ## Calls -/

/-- A call, after the aliases of the chain were entered one inside the other. -/
inductive Call where
  /-- An alias is used by its name alone, or with arguments. -/
  | use (chain : List String) (name : String) (args : Option (List String))
  /-- A text is expanded. -/
  | expand (chain : List String) (text : String)

/-- A call returns the outcome, by what the calls return that it makes. -/
inductive Run (t : AliasTable) : Call → Except Error Ty → Prop
  | refused {chain : List String} {name : String} {args : Option (List String)} {e : Error}
      (h : t.entry name args = .error e) : Run t (.use chain name args) (.error e)
  | tooDeep {chain : List String} {name target : String} {args : Option (List String)}
      (h : t.entry name args = .ok target) (hdepth : t.maxDepth ≤ chain.length) :
      Run t (.use chain name args) (.error (t.tooDeep chain name))
  | entered {chain : List String} {name target : String} {args : Option (List String)}
      {out : Except Error Ty} (h : t.entry name args = .ok target) (hdepth : chain.length < t.maxDepth)
      (hrun : Run t (.expand (chain ++ [name]) target) out) : Run t (.use chain name args) out
  | use {chain : List String} {text name : String} {args : Option (List String)}
      {out : Except Error Ty} (h : t.plan text = .use name args)
      (hrun : Run t (.use chain name args) out) : Run t (.expand chain text) out
  | malformed {chain : List String} {text : String} {e : Error} (h : t.plan text = .malformed e) :
      Run t (.expand chain text) (.error e)
  | type {chain : List String} {text : String} {ty : Ty} (h : t.plan text = .type ty)
      (outcome : String → List Region → List Ty → Except Error Ty)
      (hruns : ∀ name regions args, ty.Offered t.isAlias name regions args →
        Run t (.use chain name (givenArgs regions args)) (outcome name regions args)) :
      Run t (.expand chain text) (ty.expandNames (Ty.replacing t.isAlias outcome))

/-- The calls that a call makes. Of the aliases in a type, all are counted, also those behind one that
fails. -/
inductive Calls (t : AliasTable) : Call → Call → Prop
  | entered {chain : List String} {name target : String} {args : Option (List String)}
      (h : t.entry name args = .ok target) (hdepth : chain.length < t.maxDepth) :
      Calls t (.use chain name args) (.expand (chain ++ [name]) target)
  | use {chain : List String} {text name : String} {args : Option (List String)}
      (h : t.plan text = .use name args) : Calls t (.expand chain text) (.use chain name args)
  | type {chain : List String} {text name : String} {ty : Ty} {regions : List Region}
      {args : List Ty} (h : t.plan text = .type ty) (hoffered : ty.Offered t.isAlias name regions args) :
      Calls t (.expand chain text) (.use chain name (givenArgs regions args))

/-- How many aliases may be entered after those of the chain. -/
def left (t : AliasTable) (chain : List String) : Nat := (t.maxDepth - chain.length).toNat

/-- No chain of calls that starts with the call is longer. -/
def Call.rank (t : AliasTable) : Call → Nat
  | .use chain _ _ => 2 * t.left chain
  | .expand chain _ => 2 * t.left chain + 1

/-- The rank falls with every call. -/
theorem Calls.rank_lt {c c' : Call} (h : t.Calls c c') : c'.rank t < c.rank t := by
  cases h with
  | entered h hdepth =>
    simp only [Call.rank, left, List.length_append, List.length_singleton]
    omega
  | use h => exact Nat.lt_succ_self _
  | type h hoffered => exact Nat.lt_succ_self _

/-- No chain of calls is infinite. -/
theorem wellFounded_calls (t : AliasTable) : WellFounded fun c' c => t.Calls c c' :=
  Subrelation.wf (fun h => Calls.rank_lt h) (InvImage.wf (Call.rank t) Nat.lt_wfRel.wf)

/-! ## What calls return -/

/-- What expansion with the levels that are left makes of a call. -/
def value (t : AliasTable) : Call → Except Error Ty
  | .use chain name args => t.entry name args >>= t.enter (t.left chain) chain name
  | .expand chain text => t.expandWith (t.enter (t.left chain) chain) text

/-- No alias is entered once the chain has the greatest length. -/
theorem enter_left_of_le {chain : List String} (h : t.maxDepth ≤ chain.length) (name target : String) :
    t.enter (t.left chain) chain name target = .error (t.tooDeep chain name) := by
  have hleft : t.left chain = 0 := by
    unfold left
    omega
  rw [hleft, enter]

/-- Up to the greatest length of a chain, entering an alias expands its target. -/
theorem enter_left_of_lt {chain : List String} (h : chain.length < t.maxDepth) (name target : String) :
    t.enter (t.left chain) chain name target = t.value (.expand (chain ++ [name]) target) := by
  have hleft : t.left chain = t.left (chain ++ [name]) + 1 := by
    simp only [left, List.length_append, List.length_singleton]
    omega
  rw [hleft, enter, value]

/-- What expansion makes of a text, by the calls that it makes. -/
theorem value_expand (chain : List String) (text : String) :
    t.value (.expand chain text) =
      (t.plan text).carryOut t fun name args => t.value (.use chain name args) :=
  expandWith_eq text

/-- A call that ends returns what expansion makes of it. -/
theorem Run.eq_value {c : Call} {out : Except Error Ty} (h : t.Run c out) : out = t.value c := by
  induction h with
  | refused h =>
    rw [value, h]
    rfl
  | @tooDeep chain name target args h hdepth =>
    rw [value, h]
    exact (enter_left_of_le hdepth name target).symm
  | @entered chain name target args out h hdepth _ ih =>
    rw [ih, value.eq_1, h]
    exact (enter_left_of_lt hdepth name target).symm
  | use h _ ih =>
    rw [ih, value_expand, h]
    rfl
  | malformed h =>
    rw [value_expand, h]
    rfl
  | type h outcome _ ih =>
    rw [value_expand, h]
    exact Ty.expandNames_rel stepwiseRel_eq ih

/-- Every call ends. -/
theorem run_value (t : AliasTable) (c : Call) : t.Run c (t.value c) := by
  -- the calls that it makes have ended, and what they return decides what it returns
  induction c using t.wellFounded_calls.induction with
  | _ c ih =>
    cases c with
    | use chain name args =>
      cases hentry : t.entry name args with
      | error e =>
        have hvalue : t.value (.use chain name args) = .error e := by
          rw [value, hentry]
          rfl
        rw [hvalue]
        exact .refused hentry
      | ok target =>
        have hvalue : t.value (.use chain name args) =
            t.enter (t.left chain) chain name target := by
          rw [value, hentry]
          rfl
        rw [hvalue]
        by_cases hdepth : chain.length < t.maxDepth
        · rw [enter_left_of_lt hdepth]
          exact .entered hentry hdepth (ih _ (.entered hentry hdepth))
        · rw [enter_left_of_le (Int.not_lt.mp hdepth)]
          exact .tooDeep hentry (Int.not_lt.mp hdepth)
    | expand chain text =>
      rw [value_expand]
      cases hplan : t.plan text with
      | use name args => exact .use hplan (ih _ (.use hplan))
      | malformed e => exact .malformed hplan
      | type ty =>
        exact .type hplan _ fun name regions args hoffered => ih _ (.type hplan hoffered)

/-- What a call returns. -/
theorem run_iff {c : Call} {out : Except Error Ty} : t.Run c out ↔ out = t.value c :=
  ⟨Run.eq_value, fun h => h ▸ t.run_value c⟩

end AliasTable

end Generics
