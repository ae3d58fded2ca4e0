import Generics.Proofs.Alias.Calls
import Generics.Proofs.Alias.Transparent

/-!
# The limit on nested aliases

A higher limit changes no answer but those that the limit has cut off. A walk over a type stops at the
first alias that fails, so if that one was not cut off none before it was, and all of them come out the
same under the higher limit.

## Main results

* `AliasTable.enter_persists`: with more levels left, a target is expanded to the same outcome unless it
  was cut off;
* `Aliases.ask_ends`: every call ends, and its answer without a remembered one is the same under every
  higher limit unless it was cut off.
-/

namespace Generics

open Text

/-- The outcome is that of an expansion that the limit has cut off. -/
def IsCutOff {α : Type} (out : Except Error α) : Prop :=
  ∃ name limit chain, out = .error (.recursionDepthExceeded name limit chain)

/-- The second outcome is the first one, unless that one was cut off. -/
def Persists {α : Type} (out out' : Except Error α) : Prop := IsCutOff out ∨ out' = out

/-- Steps in a row are cut off by the first one that is. -/
theorem stepwiseRel_persists : StepwiseRel Persists where
  ok _ := .inr rfl
  bind := by
    intro α β x y f g hxy hfg
    rcases hxy with ⟨name, limit, chain, rfl⟩ | rfl
    · exact .inl ⟨name, limit, chain, rfl⟩
    · cases y with
      | error e => exact .inr rfl
      | ok a => exact hfg a

namespace AliasTable

variable {t : AliasTable}

/-- A text is expanded to the same outcome if aliases are, unless one of them was cut off. -/
theorem Plan.carryOut_persists {use use' : String → Option (List String) → Except Error Ty}
    (h : ∀ name args, Persists (use name args) (use' name args)) (plan : Plan) :
    Persists (plan.carryOut t use) (plan.carryOut t use') := by
  cases plan with
  | use name args => exact h name args
  | type ty => exact Ty.expandNames_rel stepwiseRel_persists fun name regions args _ => h name _
  | malformed e => exact .inr rfl

/-- With more levels left a target is expanded to the same outcome, unless it was cut off. -/
theorem enter_persists (limit : Int) {left left' : Nat} (h : left ≤ left') (chain : List String)
    (name target : String) :
    Persists (t.enter left chain name target)
      ({ t with maxDepth := limit }.enter left' chain name target) := by
  induction left generalizing left' chain name target with
  | zero => exact .inl ⟨_, _, _, rfl⟩
  | succ left ih =>
    obtain ⟨below, rfl⟩ : ∃ n, left' = n + 1 := ⟨left' - 1, by omega⟩
    rw [enter, enter, expandWith_eq, expandWith_eq]
    -- plans and entries depend on the aliases alone
    refine Plan.carryOut_persists (fun name args => ?_) (t.plan target)
    refine stepwiseRel_persists.bind (.inr rfl) fun target => ?_
    exact ih (Nat.le_of_succ_le_succ h) _ name target

/-- Under a higher limit a call returns the same outcome, unless it was cut off. -/
theorem value_persists {limit : Int} (h : t.maxDepth ≤ limit) (c : Call) :
    Persists (t.value c) ({ t with maxDepth := limit }.value c) := by
  have hleft (chain : List String) : t.left chain ≤ { t with maxDepth := limit }.left chain :=
    Int.toNat_le_toNat (Int.sub_le_sub_right h _)
  have huse (chain : List String) (name : String) (args : Option (List String)) :
      Persists (t.value (.use chain name args)) ({ t with maxDepth := limit }.value (.use chain name args)) :=
    stepwiseRel_persists.bind (.inr rfl) fun target => enter_persists limit (hleft chain) chain name target
  cases c with
  | use chain name args => exact huse chain name args
  | expand chain text =>
    rw [value_expand, value_expand]
    exact Plan.carryOut_persists (fun name args => huse chain name args) (t.plan text)

end AliasTable

/-- The first call that is made to answer a question about aliases. -/
def AliasCall.start : AliasCall → AliasTable.Call
  | .resolve name => .use [] name none
  | .resolveGeneric name args => .use [] name (some args)
  | .expand text => .expand [] (trim text)

theorem AliasTable.work_eq_value (t : AliasTable) (call : AliasCall) :
    t.work call = t.value call.start := by
  have hleft : t.left [] = t.room := congrArg Int.toNat (Int.sub_zero t.maxDepth)
  cases call with
  | resolve name =>
    rw [AliasCall.start, value, hleft]
    exact bare_eq name
  | resolveGeneric name args =>
    rw [AliasCall.start, value, hleft]
    exact application_eq name args
  | expand text =>
    rw [AliasCall.start, value, hleft]
    rfl

namespace Aliases

/-- Every call ends, also where aliases name each other: the calls that it leads to go down, and there is
one outcome that they make it return. Aliases that remember nothing answer with that outcome. If the limit
did not cut it off, it is their answer under every higher limit. -/
theorem ask_ends (t : AliasTable) (call : AliasCall) :
    (WellFounded fun c' c => t.Calls c c') ∧
      (∀ out, t.Run call.start out ↔ out = (ask ⟨t, []⟩ call).2) ∧
      ∀ limit, t.maxDepth < limit → ¬IsCutOff (ask ⟨t, []⟩ call).2 →
        (ask ⟨{ t with maxDepth := limit }, []⟩ call).2 = (ask ⟨t, []⟩ call).2 := by
  have hanswer (table : AliasTable) : (ask ⟨table, []⟩ call).2 = table.value call.start := by
    rw [ask_forgotten, AliasTable.work_eq_value]
  refine ⟨AliasTable.wellFounded_calls t, fun out => ?_, fun limit hlimit hcut => ?_⟩
  · rw [hanswer]
    exact AliasTable.run_iff
  · rw [hanswer] at hcut
    rw [hanswer, hanswer]
    exact (AliasTable.value_persists (Int.le_of_lt hlimit) call.start).resolve_left hcut

/-- A name of a name is cut off by a limit of one. It is found under a limit of two, and so it is under a
limit of 32. -/
theorem ask_ends_of_two_levels :
    let table : AliasTable := ⟨[⟨"Byte", [], "u8"⟩, ⟨"Octet", [], "Byte"⟩], 2⟩
    IsCutOff (ask ⟨{ table with maxDepth := 1 }, []⟩ (.resolve "Octet")).2 ∧
      ¬IsCutOff (ask ⟨table, []⟩ (.resolve "Octet")).2 ∧
      (ask ⟨{ table with maxDepth := 32 }, []⟩ (.resolve "Octet")).2 = .ok (.prim "u8") := by
  intro table
  have hsplit : Alias.splitApplication "Byte" = none := by decide +kernel
  -- one level goes into the entering of `Octet`
  have hname (limit : Int) (left : Nat) :
      { table with maxDepth := limit }.enter (left + 1) [] "Octet" "Byte" =
        { table with maxDepth := limit }.enter left ["Octet"] "Byte" "u8" := by
    rw [AliasTable.enter, AliasTable.expandWith, hsplit]
    rfl
  have htarget : table.enter 1 ["Octet"] "Byte" "u8" = .ok (.prim "u8") := by
    have hu8 : (Ty.prim "u8").Canonical := by decide +kernel
    rw [AliasTable.enter]
    exact AliasTable.expandWith_render hu8 (by decide +kernel) (by decide +kernel)
  have hcut : IsCutOff (ask ⟨{ table with maxDepth := 1 }, []⟩ (.resolve "Octet")).2 := by
    rw [ask_forgotten]
    exact ⟨_, _, _, hname 1 0⟩
  have htwo : (ask ⟨table, []⟩ (.resolve "Octet")).2 = .ok (.prim "u8") := by
    rw [ask_forgotten]
    exact (hname 2 1).trans htarget
  have hdone : ¬IsCutOff (ask ⟨table, []⟩ (.resolve "Octet")).2 := by
    rintro ⟨name, limit, chain, h⟩
    cases htwo.symm.trans h
  exact ⟨hcut, hdone, ((ask_ends table (.resolve "Octet")).2.2 32 (by decide) hdone).trans htwo⟩

end Aliases

end Generics
