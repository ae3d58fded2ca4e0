import Generics.Alias.Cache

/-!
# Runs of an alias table

Aliases are declared and asked about in any order. An answer is remembered until another alias is
declared, so what is remembered was worked out from the aliases as they are now, and it was asked for
since the last declaration.

## Main results

* `Aliases.handle_recalls` and `Aliases.handleAll_recalls`: every remembered answer is the one that was
  worked out for a recent call;
* `Aliases.ask_run`: every answer of a run is the one that is worked out for this call or for a recent
  one with the same query.
-/

namespace Generics

open Text

/-- A question about aliases. -/
inductive AliasCall where
  | resolve (name : String)
  | resolveGeneric (name : String) (args : List String)
  | expand (text : String)
deriving DecidableEq, Repr

/-- The query that the call makes, under whose key its answer is remembered. -/
def AliasCall.query : AliasCall → AliasQuery
  | .resolve name => .resolve name
  | .resolveGeneric name args => .generic (TypeAlias.applied name args)
  | .expand text => .expand (trim text)

/-- The answer that the aliases give to a call when nothing is remembered. -/
def AliasTable.work (t : AliasTable) : AliasCall → Except Error Ty
  | .resolve name => t.resolve name
  | .resolveGeneric name args => t.resolveGeneric name args
  | .expand text => t.expand (trim text)

/-- The alias can be declared as it stands: nothing is trimmed from its name and target, which are not
empty, its name is new and its target does not mention it. -/
def AliasTable.canDeclare (t : AliasTable) (a : TypeAlias) : Bool :=
  trim a.name = a.name && trim a.target = a.target && a.name ≠ "" && a.target ≠ "" &&
    (t.find? a.name).isNone && !Alias.mentions a.target a.name

theorem AliasTable.declare_of_canDeclare {t : AliasTable} {a : TypeAlias}
    (h : t.canDeclare a = true) : t.declare a = .ok { t with aliases := t.aliases ++ [a] } := by
  simp only [canDeclare, Bool.and_eq_true, decide_eq_true_eq, Bool.not_eq_true'] at h
  obtain ⟨⟨⟨⟨⟨hname, htarget⟩, hname'⟩, htarget'⟩, hnew⟩, hmentions⟩ := h
  have hfind : (t.find? a.name).isSome = false := by
    rw [Option.isNone_iff_eq_none.mp hnew]
    rfl
  simp only [declare, hname, htarget, hfind, hmentions, if_neg hname', if_neg htarget',
    Bool.false_eq_true, if_false]

/-- The aliases can be declared one after the other. -/
def AliasTable.canDeclareAll (t : AliasTable) : List TypeAlias → Bool
  | [] => true
  | a :: as => t.canDeclare a && canDeclareAll { t with aliases := t.aliases ++ [a] } as

namespace Aliases

/-- Answers a call. -/
def ask (n : Aliases) : AliasCall → Aliases × Except Error Ty
  | .resolve name => n.resolve name
  | .resolveGeneric name args => n.resolveGeneric name args
  | .expand text => n.expand text

/-- What happens to aliases: one more is declared, or they are asked about. -/
inductive Event where
  | declare (a : TypeAlias)
  | ask (call : AliasCall)

/-- Aliases in use, with the calls since the last declaration that succeeded. -/
structure Use where
  aliases : Aliases
  recent : List AliasCall := []

/-- The aliases after an event. -/
def Use.handle (u : Use) : Event → Use
  | .declare a =>
    match u.aliases.declare a with
    | (aliases, .ok ()) => { aliases }
    | (aliases, .error _) => { u with aliases }
  | .ask call => ⟨(u.aliases.ask call).1, call :: u.recent⟩

/-- The aliases after events in order, none being declared before. -/
def run (maxDepth : Int) (events : List Event) : Use :=
  events.foldl Use.handle { aliases := withMaxDepth maxDepth }

/-! ## What is remembered -/

/-- One more alias makes all answers forgotten. -/
theorem handle_declare_of_ok {u : Use} {a : TypeAlias} {table : AliasTable}
    (h : u.aliases.table.declare a = .ok table) :
    u.handle (.declare a) = { aliases := ⟨table, []⟩ } := by
  rw [Use.handle, Aliases.declare, h]

/-- An alias that cannot be declared changes nothing. -/
theorem handle_declare_of_error {u : Use} {a : TypeAlias} {e : Error}
    (h : u.aliases.table.declare a = .error e) : u.handle (.declare a) = u := by
  rw [Use.handle, Aliases.declare, h]

/-- A run that only declares aliases, each of which can be declared. -/
theorem foldl_declare {t : AliasTable} {as : List TypeAlias} (h : t.canDeclareAll as = true) :
    (as.map Event.declare).foldl Use.handle { aliases := ⟨t, []⟩ } =
      { aliases := ⟨{ t with aliases := t.aliases ++ as }, []⟩ } := by
  induction as generalizing t with
  | nil => simp
  | cons a as ih =>
    rw [AliasTable.canDeclareAll, Bool.and_eq_true] at h
    have hdeclare := AliasTable.declare_of_canDeclare h.1
    rw [List.map_cons, List.foldl_cons, handle_declare_of_ok (u := { aliases := ⟨t, []⟩ }) hdeclare,
      ih h.2]
    simp

theorem run_declare {maxDepth : Int} {as : List TypeAlias}
    (h : AliasTable.canDeclareAll ⟨[], maxDepth⟩ as = true) :
    run maxDepth (as.map Event.declare) = { aliases := ⟨⟨as, maxDepth⟩, []⟩ } :=
  foldl_declare h

theorem run_append (maxDepth : Int) (events more : List Event) :
    run maxDepth (events ++ more) = more.foldl Use.handle (run maxDepth events) :=
  List.foldl_append

theorem ask_eq (n : Aliases) (call : AliasCall) :
    n.ask call = n.answer call.query (n.table.work call) := by
  cases call <;> rfl

@[simp] theorem answer_table (n : Aliases) (query : AliasQuery) (work : Except Error Ty) :
    (n.answer query work).1.table = n.table := by
  unfold answer
  split <;> rfl

@[simp] theorem ask_table (n : Aliases) (call : AliasCall) : (n.ask call).1.table = n.table := by
  rw [ask_eq, answer_table]

/-- Every remembered answer is the one that was worked out for a recent call. -/
def Use.Recalls (u : Use) : Prop :=
  ∀ key outcome, u.aliases.cache.lookup key = some outcome →
    ∃ call ∈ u.recent, call.query.key = key ∧ outcome = u.aliases.table.work call

/-- The answer to a call is the one that is worked out for it, or for a recent call with the same
query. -/
theorem Use.Recalls.ask {u : Use} (h : u.Recalls) (call : AliasCall) :
    ∃ asked ∈ call :: u.recent, asked.query = call.query ∧
      (u.aliases.ask call).2 = u.aliases.table.work asked := by
  rw [ask_eq]
  unfold answer
  cases hlookup : u.aliases.cache.lookup call.query.key with
  | some outcome =>
    obtain ⟨asked, hmem, hkey, houtcome⟩ := h _ _ hlookup
    exact ⟨asked, List.mem_cons_of_mem call hmem, AliasQuery.key_injective hkey, houtcome⟩
  | none => exact ⟨call, List.mem_cons_self, rfl, rfl⟩

/-- An event keeps what is remembered right. -/
theorem handle_recalls {u : Use} (h : u.Recalls) (e : Event) : (u.handle e).Recalls := by
  cases e with
  | declare a =>
    cases hdeclare : u.aliases.table.declare a with
    | ok table =>
      rw [handle_declare_of_ok hdeclare]
      intro key outcome hlookup
      cases hlookup
    | error e =>
      rw [handle_declare_of_error hdeclare]
      exact h
  | ask call =>
    show Use.Recalls ⟨(u.aliases.ask call).1, call :: u.recent⟩
    intro key outcome hlookup
    rw [ask_table]
    rw [ask_eq] at hlookup
    unfold answer at hlookup
    cases hremembered : u.aliases.cache.lookup call.query.key with
    | some remembered =>
      -- the cache is as before
      rw [hremembered] at hlookup
      obtain ⟨asked, hmem, hrest⟩ := h key outcome hlookup
      exact ⟨asked, List.mem_cons_of_mem call hmem, hrest⟩
    | none =>
      rw [hremembered] at hlookup
      by_cases hkey : key = call.query.key
      · subst hkey
        have hlatest : outcome = u.aliases.table.work call := by simpa using hlookup.symm
        exact ⟨call, List.mem_cons_self, rfl, hlatest⟩
      · have hne : (key == call.query.key) = false := by simpa using hkey
        rw [List.lookup_cons, hne] at hlookup
        obtain ⟨asked, hmem, hrest⟩ := h key outcome hlookup
        exact ⟨asked, List.mem_cons_of_mem call hmem, hrest⟩

/-- Whatever happens, what is remembered is right. -/
theorem handleAll_recalls {u : Use} (h : u.Recalls) (events : List Event) :
    (events.foldl Use.handle u).Recalls := by
  induction events generalizing u with
  | nil => exact h
  | cons e es ih => exact ih (handle_recalls h e)

theorem recalls_run (maxDepth : Int) (events : List Event) : (run maxDepth events).Recalls := by
  have hstart : Use.Recalls { aliases := withMaxDepth maxDepth } := by
    intro key outcome hlookup
    cases hlookup
  exact handleAll_recalls hstart events

/-- Every answer of a run is the one that is worked out for this call, or for a recent call with the
same query. -/
theorem ask_run (maxDepth : Int) (events : List Event) (call : AliasCall) :
    ∃ asked ∈ call :: (run maxDepth events).recent, asked.query = call.query ∧
      ((run maxDepth events).aliases.ask call).2 = (run maxDepth events).aliases.table.work asked :=
  (recalls_run maxDepth events).ask call

end Aliases

end Generics
