import Generics.Proofs.Alias.Normal
import Generics.Proofs.Ty.Extent

/-!
# Remembered answers are right

An answer that is remembered was worked out from the same aliases, but maybe for another request that is
written alike. Bare names and texts are remembered as they are. Applied aliases are remembered in
written form, from which name and arguments can only be told if every bracket in an argument is closed
and all of its commas are in brackets.

## Main results

* `TypeAlias.isLegibleArg_of_parse`: the text of a type is a legible argument;
* `TypeAlias.applied_injective`: name and arguments of an applied alias can be told from its written form;
* `Aliases.ask_transparent`: remembered answers are those that would be worked out;
* `Aliases.ask_not_transparent_of_comma`: an argument with a comma is taken for two arguments.
-/

namespace Generics

open Text

namespace TypeAlias

theorem toList_applied (name : String) (args : List String) :
    (applied name args).toList =
      name.toList ++ '<' :: ([',', ' '].intercalate (args.map String.toList) ++ ['>']) := by
  have hjoin : (", ".intercalate args).toList = [',', ' '].intercalate (args.map String.toList) :=
    String.toList_intercalate
  rw [← hjoin]
  show ("" ++ name ++ "<" ++ ", ".intercalate args ++ ">").toList = _
  simp [String.toList_append]

/-- The argument is not empty, every bracket in it is closed, and all of its commas are in brackets. -/
def isLegibleArg (arg : String) : Bool := arg ≠ "" && isSealed arg.toList

/-- The text of a type is a legible argument. -/
theorem isLegibleArg_of_parse {arg : String} {t : Ty} (h : Ty.parse arg = .ok t) :
    isLegibleArg arg = true := by
  have hne : arg ≠ "" := by
    rintro rfl
    obtain ⟨toks, hscan, hread⟩ := Ty.parse_eq_ok_iff.mp h
    obtain rfl : [] = toks := by simpa [Token.scan] using hscan
    exact (Ty.extent_of_read? hread).ne_nil rfl
  simp [isLegibleArg, hne, Ty.isSealed_of_parse h]

/-- Of two balanced texts after a `<`, neither begins inside the other. -/
theorem eq_nil_of_balanced {cs ds front : List Char} (hcs : isBalanced cs = true)
    (hds : isBalanced ds = true) (h : '<' :: cs = front ++ '<' :: ds) : front = [] := by
  cases front with
  | nil => rfl
  | cons c front =>
    have hinside : cs = front ++ '<' :: ds := (List.cons.inj h).2
    simp only [isBalanced, decide_eq_true_eq] at hcs hds
    -- the `<` between `front` and `ds` stays open
    rw [hinside, depthAfter?_append] at hcs
    obtain ⟨depth, -, hopened⟩ := Option.bind_eq_some_iff.mp hcs
    have hclosed := Mark.depthAfter?_add hds (depth + 1)
    rw [Nat.zero_add] at hclosed
    have hsame : depthAfter? false (depth + 1) (some '<') ds = some (depth + 1) :=
      (depthAfter?_congr (by decide) false (depth + 1) ds).trans hclosed
    rw [depthAfter?_cons] at hopened
    cases hopened.symm.trans hsame

/-- The name and the arguments of an applied alias can be told from its written form. -/
theorem applied_injective {name name' : String} {args args' : List String}
    (hargs : args.all isLegibleArg = true) (hargs' : args'.all isLegibleArg = true)
    (h : applied name args = applied name' args') : name = name' ∧ args = args' := by
  have hlegible : ∀ {args : List String}, args.all isLegibleArg = true →
      ∀ cs ∈ args.map String.toList, cs ≠ [] ∧ isSealed cs = true := by
    intro args hargs cs hcs
    obtain ⟨arg, harg, rfl⟩ := List.mem_map.mp hcs
    simpa [isLegibleArg] using List.all_eq_true.mp hargs arg harg
  have hbalanced : ∀ {args : List String}, args.all isLegibleArg = true →
      isBalanced ([',', ' '].intercalate (args.map String.toList)) = true :=
    fun hargs => isBalanced_intercalate fun cs hcs => (hlegible hargs cs hcs).2
  have hchars := congrArg String.toList h
  simp only [toList_applied, ← List.cons_append, ← List.append_assoc] at hchars
  have hopen := List.append_cancel_right hchars
  -- the `<` after the name is at the same place in both
  have hname : name.toList = name'.toList := by
    obtain ⟨front, hfront, hrest⟩ | ⟨front, hfront, hrest⟩ := List.append_eq_append_iff.mp hopen
    · rw [hfront, eq_nil_of_balanced (hbalanced hargs) (hbalanced hargs') hrest, List.append_nil]
    · rw [hfront, eq_nil_of_balanced (hbalanced hargs') (hbalanced hargs) hrest, List.append_nil]
  rw [hname] at hopen
  have hlist := (List.cons.inj (List.append_cancel_left hopen)).2
  have hmap := intercalate_injective (hlegible hargs) (hlegible hargs') hlist
  exact ⟨String.toList_inj.mp hname, (List.map_inj_right fun _ _ => String.toList_inj.mp).mp hmap⟩

end TypeAlias

/-- All arguments in the call are legible. Only an applied alias has arguments. -/
def AliasCall.isLegible : AliasCall → Bool
  | .resolveGeneric _ args => args.all TypeAlias.isLegibleArg
  | _ => true

/-- Legible calls with the same query have the same answer. -/
theorem AliasTable.work_eq_of_query_eq {t : AliasTable} {call asked : AliasCall}
    (hcall : call.isLegible = true) (hasked : asked.isLegible = true)
    (h : asked.query = call.query) : t.work asked = t.work call := by
  cases asked with
  | resolve name =>
    cases call with
    | resolve name' => rw [AliasQuery.resolve.inj h]
    | resolveGeneric name' args' => cases h
    | expand text' => cases h
  | resolveGeneric name args =>
    cases call with
    | resolve name' => cases h
    | resolveGeneric name' args' =>
      obtain ⟨rfl, rfl⟩ := TypeAlias.applied_injective hasked hcall (AliasQuery.generic.inj h)
      rfl
    | expand text' => cases h
  | expand text =>
    cases call with
    | resolve name' => cases h
    | resolveGeneric name' args' => cases h
    -- texts may differ in the blanks around them
    | expand text' => rw [work, work, AliasQuery.expand.inj h]

namespace Aliases

/-- Aliases that remember nothing work out what they are asked. -/
theorem ask_forgotten (table : AliasTable) (call : AliasCall) :
    (ask ⟨table, []⟩ call).2 = table.work call := by
  rw [ask_eq]
  rfl

/-- Whatever was declared and asked before, the answer to a call is the one that the same aliases give
when they remember nothing, type or failure. If another call since the last declaration is remembered in
the same place, the arguments of both must be legible, which says nothing about bare names and texts. -/
theorem ask_transparent (maxDepth : Int) (events : List Event) (call : AliasCall)
    (h : ∀ asked ∈ (run maxDepth events).recent, asked.query = call.query →
      asked = call ∨ (asked.isLegible && call.isLegible) = true) :
    ((run maxDepth events).aliases.ask call).2 =
      (ask ⟨(run maxDepth events).aliases.table, []⟩ call).2 := by
  rw [ask_forgotten]
  obtain ⟨asked, hmem, hquery, hanswer⟩ := ask_run maxDepth events call
  have hsame : asked = call ∨ (asked.isLegible && call.isLegible) = true := by
    rcases List.mem_cons.mp hmem with rfl | hrecent
    · exact .inl rfl
    · exact h asked hrecent hquery
  rcases hsame with rfl | hlegible
  · exact hanswer
  · obtain ⟨hasked, hcall⟩ := Bool.and_eq_true_iff.mp hlegible
    exact hanswer.trans (AliasTable.work_eq_of_query_eq hcall hasked hquery)

/-- The alias of a pair of types. -/
def pairAlias : TypeAlias := ⟨"Pair", ["A", "B"], "(A, B)"⟩

theorem run_pairAlias : run 4 [.declare pairAlias] = { aliases := ⟨⟨[pairAlias], 4⟩, []⟩ } :=
  have hnew : AliasTable.canDeclareAll ⟨[], 4⟩ [pairAlias] = true := by decide +kernel
  run_declare hnew

/-- The pair of two built-in types. -/
theorem resolveGeneric_pairAlias : AliasTable.resolveGeneric ⟨[pairAlias], 4⟩ "Pair" ["i32", "bool"] =
    .ok (.tuple [.prim "i32", .prim "bool"]) := by
  let pair : Ty := .tuple [.prim "i32", .prim "bool"]
  have hcanonical : pair.Canonical := by decide +kernel
  have hinstantiate : pairAlias.instantiate ["i32", "bool"] = pair.render := by decide +kernel
  show AliasTable.enter _ 4 [] "Pair" (pairAlias.instantiate ["i32", "bool"]) = _
  rw [hinstantiate, AliasTable.enter]
  exact AliasTable.expandWith_render hcanonical (by decide +kernel) (by decide +kernel)

/-- The call is remembered, together with an illegible call that is written otherwise. -/
theorem ask_transparent_of_remembered :
    let call : AliasCall := .resolveGeneric "Pair" ["(u8, A)", "Vec<u8>"]
    let use := run 4 [.declare pairAlias, .ask call, .ask (.resolveGeneric "Pair" ["u8, u8"])]
    (∀ asked ∈ use.recent, asked.query = call.query →
      asked = call ∨ (asked.isLegible && call.isLegible) = true) ∧
      (use.aliases.ask call).2 = (ask ⟨use.aliases.table, []⟩ call).2 := by
  intro call use
  have hrecent : use.recent = [.resolveGeneric "Pair" ["u8, u8"], call] := by
    show (run 4 ([.declare pairAlias] ++ _)).recent = _
    rw [run_append, run_pairAlias]
    rfl
  have hlegible : ∀ asked ∈ use.recent, asked.query = call.query →
      asked = call ∨ (asked.isLegible && call.isLegible) = true := by
    rw [hrecent]
    decide +kernel
  exact ⟨hlegible, ask_transparent 4 _ call hlegible⟩

/-- An argument with a comma is written like two arguments. It gets their answer once they were asked
about, and is a wrong number of arguments otherwise. -/
theorem ask_not_transparent_of_comma :
    let call : AliasCall := .resolveGeneric "Pair" ["i32, bool"]
    let use := run 4 [.declare pairAlias, .ask (.resolveGeneric "Pair" ["i32", "bool"])]
    (use.aliases.ask call).2 = .ok (.tuple [.prim "i32", .prim "bool"]) ∧
      (ask ⟨use.aliases.table, []⟩ call).2 =
        .error (.typeMismatch "Pair<A, B>" "Pair<i32, bool>" "generic alias arguments") := by
  intro call use
  let table : AliasTable := ⟨[pairAlias], 4⟩
  let pair : Ty := .tuple [.prim "i32", .prim "bool"]
  have hpair : table.work (.resolveGeneric "Pair" ["i32", "bool"]) = .ok pair :=
    resolveGeneric_pairAlias
  have huse : use = ⟨⟨table, [(call.query.key, .ok pair)]⟩, [.resolveGeneric "Pair" ["i32", "bool"]]⟩ := by
    show run 4 ([.declare pairAlias] ++ _) = _
    -- the two calls are written alike
    have hquery : (AliasCall.resolveGeneric "Pair" ["i32", "bool"]).query = call.query := by
      decide +kernel
    rw [run_append, run_pairAlias, ← hpair, ← hquery]
    rfl
  have htable : use.aliases.table = table := by rw [huse]
  refine ⟨?_, ?_⟩
  · have hcached : use.aliases.cache.lookup call.query.key = some (.ok pair) := by
      rw [huse]
      exact List.lookup_cons_self
    rw [ask_eq, answer, hcached]
  · rw [htable, ask_forgotten]
    show Except.error (pairAlias.wrongArguments ["i32, bool"]) = _
    have hwritten : TypeAlias.applied "Pair" ["A", "B"] = "Pair<A, B>" ∧
        TypeAlias.applied "Pair" ["i32, bool"] = "Pair<i32, bool>" := by decide +kernel
    rw [TypeAlias.wrongArguments]
    exact congrArg Except.error (congrArg₂ (Error.typeMismatch · · _) hwritten.1 hwritten.2)

end Aliases

end Generics
