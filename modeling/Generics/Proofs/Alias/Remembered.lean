import Generics.Manifest.Declare

/-!
# Remembered expansions are right

An answer to an expansion is remembered until another alias is declared, and the table of aliases does
not change in between. So it makes no difference what is remembered: the outcome of work that expands
aliases is settled by the table.

## Main results

* `Aliases.Sound`: the remembered expansions are those of the table;
* `ExpandM.Settled`: with a given table the work has one outcome, and what is remembered stays right;
* `ExpandM.Steady`: the outcome of the work is settled by the table.
-/

namespace Generics

open Text

namespace Aliases

/-- The expansions that are remembered are those of the table. -/
def Sound (n : Aliases) : Prop :=
  ∀ text outcome, n.cache.lookup (AliasQuery.expand text).key = some outcome → outcome = n.table.expand text

/-- Aliases that remember nothing remember nothing wrong. -/
theorem sound_of_cache_eq_nil {n : Aliases} (h : n.cache = []) : n.Sound := by
  intro text outcome hlookup
  rw [h] at hlookup
  cases hlookup

/-- Another alias makes all answers forgotten. -/
theorem Sound.declare {n : Aliases} (h : n.Sound) (a : TypeAlias) : (n.declare a).1.Sound := by
  unfold Aliases.declare
  split
  · exact sound_of_cache_eq_nil rfl
  · exact h

/-- Answering from the cache or anew makes no difference, and the cache stays sound. -/
theorem Sound.answer {n : Aliases} (h : n.Sound) {text : String} {work : Except Error Ty}
    (hwork : n.table.expand text = work) :
    (n.answer (.expand text) work).2 = work ∧ (n.answer (.expand text) work).1.table = n.table ∧
      (n.answer (.expand text) work).1.Sound := by
  unfold Aliases.answer
  cases hlookup : n.cache.lookup (AliasQuery.expand text).key with
  | some outcome => exact ⟨(h text outcome hlookup).trans hwork, rfl, h⟩
  | none =>
    refine ⟨rfl, rfl, fun text' outcome hlookup' => ?_⟩
    show outcome = n.table.expand text'
    rw [List.lookup_cons] at hlookup'
    split at hlookup'
    · -- the answer that was just worked out
      rename_i heq
      obtain rfl : text' = text := AliasQuery.expand.inj (AliasQuery.key_injective (by simpa using heq))
      rw [hwork]
      exact (Option.some.inj hlookup').symm
    · exact h text' outcome hlookup'

/-- Expanding a text does not depend on what is remembered. -/
theorem Sound.expand {n : Aliases} (h : n.Sound) (text : String) :
    (n.expand text).2 = n.table.expand (trim text) ∧ (n.expand text).1.table = n.table ∧
      (n.expand text).1.Sound :=
  h.answer rfl

end Aliases

namespace ExpandM

variable {α β : Type}

/-- With the given table of aliases the work has the given outcome, whatever is remembered, and what is
remembered stays right. -/
def Settled (table : AliasTable) (m : ExpandM α) (outcome : Except Problem α) : Prop :=
  ∀ n : Aliases, n.table = table → n.Sound →
    (m.run.run n).1 = outcome ∧ (m.run.run n).2.table = table ∧ (m.run.run n).2.Sound

/-- The outcome of the work is settled by the table of aliases. -/
def Steady (m : ExpandM α) : Prop := ∀ table, ∃ outcome, Settled table m outcome

/-- A value is settled. -/
theorem settled_pure (table : AliasTable) (a : α) : Settled table (pure a) (.ok a) :=
  fun _ htable hsound => ⟨rfl, htable, hsound⟩

/-- A value is steady, whatever the table is. -/
theorem steady_pure (a : α) : Steady (pure a) := fun table => ⟨.ok a, settled_pure table a⟩

/-- A problem is steady, whatever the table is. -/
theorem steady_throw (problem : Problem) : Steady (throw problem : ExpandM α) :=
  fun _ => ⟨.error problem, fun _ htable hsound => ⟨rfl, htable, hsound⟩⟩

/-- What the second part of a computation is run with. -/
theorem run_bind (m : ExpandM α) (f : α → ExpandM β) (n : Aliases) :
    (m >>= f).run.run n =
      match (m.run.run n).1 with
      | .ok a => (f a).run.run (m.run.run n).2
      | .error problem => (.error problem, (m.run.run n).2) := by
  rw [ExceptT.run_bind, StateT.run_bind]
  generalize m.run.run n = p
  obtain ⟨outcome, n'⟩ := p
  cases outcome <;> rfl

/-- A computation is settled if its parts are. -/
theorem Settled.bind {table : AliasTable} {m : ExpandM α} {f : α → ExpandM β} {a : α}
    {outcome : Except Problem β} (hm : Settled table m (.ok a)) (hf : Settled table (f a) outcome) :
    Settled table (m >>= f) outcome := by
  intro n htable hsound
  obtain ⟨hok, htable', hsound'⟩ := hm n htable hsound
  rw [run_bind, hok]
  exact hf _ htable' hsound'

/-- What fails in its first part has failed. -/
theorem Settled.bind_error {table : AliasTable} {m : ExpandM α} {problem : Problem}
    (hm : Settled table m (.error problem)) (f : α → ExpandM β) :
    Settled table (m >>= f) (.error problem) := by
  intro n htable hsound
  obtain ⟨herror, htable', hsound'⟩ := hm n htable hsound
  rw [run_bind, herror]
  exact ⟨rfl, htable', hsound'⟩

/-- A list is settled member by member. -/
theorem Settled.mapM {table : AliasTable} {f : α → ExpandM β} {g : α → β} {l : List α}
    (hf : ∀ a ∈ l, Settled table (f a) (.ok (g a))) : Settled table (l.mapM f) (.ok (l.map g)) := by
  induction l with
  | nil => exact settled_pure table []
  | cons a l ih =>
    obtain ⟨ha, hl⟩ := List.forall_mem_cons.mp hf
    rw [List.mapM_cons]
    exact ha.bind ((ih hl).bind (settled_pure table (g a :: l.map g)))

/-- A computation is steady if its parts are. -/
theorem Steady.bind {m : ExpandM α} {f : α → ExpandM β} (hm : Steady m) (hf : ∀ a, Steady (f a)) :
    Steady (m >>= f) := by
  intro table
  obtain ⟨first, hfirst⟩ := hm table
  cases first with
  | ok a =>
    obtain ⟨outcome, hrest⟩ := hf a table
    exact ⟨outcome, hfirst.bind hrest⟩
  | error problem => exact ⟨.error problem, hfirst.bind_error f⟩

/-- A list is steady if what is done to each member is. -/
theorem Steady.mapM {f : α → ExpandM β} (hf : ∀ a, Steady (f a)) (l : List α) : Steady (l.mapM f) := by
  induction l with
  | nil => exact steady_pure []
  | cons a l ih =>
    rw [List.mapM_cons]
    exact (hf a).bind fun b => ih.bind fun bs => steady_pure (b :: bs)

/-- A type that is read is expanded by the table alone. -/
theorem settled_type (table : AliasTable) (text : String) :
    Settled table (type text) ((table.expand (trim text)).mapError .coded) := by
  intro n htable hsound
  obtain ⟨houtcome, htable', hsound'⟩ := hsound.expand text
  refine ⟨?_, htable'.trans htable, hsound'⟩
  show (n.expand text).2.mapError _ = _
  rw [houtcome, htable]

theorem steady_type (text : String) : Steady (type text) := fun table => ⟨_, settled_type table text⟩

/-- Bounds are read steadily, as their arguments are types. -/
theorem steady_bound (text : String) : Steady (bound text) := by
  unfold bound
  simp only
  split
  · exact steady_pure _
  · refine (steady_type _).bind fun t => ?_
    split
    · exact steady_pure _
    · exact steady_throw _

/-- Parameters are read steadily. -/
theorem steady_param (p : ParamDecl) : Steady (param p) := by
  unfold param
  split
  · refine (Steady.mapM steady_bound _).bind fun bounds => ?_
    split
    · exact (steady_pure none).bind fun _ => steady_pure _
    · refine Steady.bind ?_ fun _ => steady_pure _
      rw [map_eq_pure_bind]
      exact (steady_type _).bind fun _ => steady_pure _
  · exact steady_throw _

/-- Methods are read steadily. -/
theorem steady_method (decl : String × String) : Steady (method decl) := by
  unfold method
  refine (steady_type _).bind fun t => ?_
  split
  · exact steady_pure _
  · exact steady_throw _

theorem steady_capability (decl : CapabilityDecl) : Steady (capability decl) :=
  (Steady.mapM steady_param _).bind fun _ =>
    (Steady.mapM steady_method _).bind fun _ => steady_pure _

theorem steady_clause (decl : WhereDecl) : Steady (clause decl) :=
  (steady_type _).bind fun _ => (Steady.mapM steady_bound _).bind fun _ => steady_pure _

theorem steady_implementation (decl : ImplementationDecl) : Steady (implementation decl) :=
  (steady_type _).bind fun _ => (Steady.mapM steady_type _).bind fun _ =>
    (Steady.mapM steady_clause _).bind fun _ =>
      (Steady.mapM (fun _ => (steady_type _).bind fun _ => steady_pure _) _).bind fun _ => steady_pure _

theorem steady_constParam (decl : ConstParamDecl) : Steady (constParam decl) :=
  (steady_type _).bind fun _ => steady_pure _

/-- What is steady keeps the cache sound. -/
theorem Steady.sound {m : ExpandM α} (h : Steady m) {n : Aliases} (hn : n.Sound) :
    (m.run.run n).2.Sound := by
  obtain ⟨outcome, hsteady⟩ := h n.table
  exact (hsteady n rfl hn).2.2

end ExpandM

namespace Declarations

/-- Nothing is remembered that is not right: no verdict, and no expansion but those of the table. -/
def IsFresh (d : Declarations) : Prop := d.registry.cache = [] ∧ d.aliases.Sound

/-- Declaring an alias keeps declarations fresh. -/
theorem IsFresh.addAlias {d : Declarations} (h : d.IsFresh) (a : TypeAlias) :
    (d.addAlias a).1.IsFresh :=
  ⟨h.1, h.2.declare a⟩

/-- A steady computation keeps declarations fresh. -/
theorem IsFresh.expanding {α : Type} {d d' : Declarations} (h : d.IsFresh) {work : ExpandM α}
    (hwork : work.Steady) {outcome : Except Problem α} (hrun : d.expanding work = (d', outcome)) :
    d'.IsFresh := by
  obtain rfl := congrArg Prod.fst hrun
  exact ⟨h.1, hwork.sound h.2⟩

/-- Declaring forgets nothing and remembers nothing. -/
theorem declare_cache (r : Registry) (cap : Capability) : (r.declare cap).1.cache = r.cache := by
  unfold Registry.declare
  split <;> rfl

/-- Neither does storing an implementation. -/
theorem implement_cache (r : Registry) (i : Implementation) : (r.implement i).1.cache = r.cache := by
  unfold Registry.implement
  split <;> rfl

/-- Declaring a capability keeps declarations fresh. -/
theorem IsFresh.addCapability {d : Declarations} (h : d.IsFresh) (decl : CapabilityDecl) :
    (d.addCapability decl).1.IsFresh := by
  unfold Declarations.addCapability
  split
  · exact h.expanding (ExpandM.steady_capability decl) ‹_›
  · have hexpanded := h.expanding (ExpandM.steady_capability decl) ‹_›
    exact ⟨(declare_cache _ _).trans hexpanded.1, hexpanded.2⟩

/-- Declaring an implementation keeps declarations fresh. -/
theorem IsFresh.addImplementation {d : Declarations} (h : d.IsFresh) (decl : ImplementationDecl) :
    (d.addImplementation decl).1.IsFresh := by
  unfold Declarations.addImplementation
  split
  · exact h.expanding (ExpandM.steady_implementation decl) ‹_›
  · have hexpanded := h.expanding (ExpandM.steady_implementation decl) ‹_›
    exact ⟨(implement_cache _ _).trans hexpanded.1, hexpanded.2⟩

/-- Declaring a constant keeps declarations fresh. -/
theorem IsFresh.addConst {d : Declarations} (h : d.IsFresh) (decl : ConstDecl) :
    (d.addConst decl).1.IsFresh := by
  have hparams := ExpandM.Steady.mapM ExpandM.steady_constParam decl.params
  unfold Declarations.addConst
  split
  · exact h.expanding hparams ‹_›
  · have hexpanded := h.expanding hparams ‹_›
    split <;> exact hexpanded

/-- What one declaration keeps, a list of them keeps. -/
theorem IsFresh.addAll {α : Type} {add : Declarations → α → Declarations × Except Problem Unit}
    {construct : α → String} (hadd : ∀ d a, IsFresh d → (add d a).1.IsFresh) {d : Declarations}
    (h : d.IsFresh) (decls : List (Located α)) :
    (Declarations.addAll add construct d decls).1.IsFresh := by
  induction decls generalizing d with
  | nil => exact h
  | cons decl decls ih =>
    have hrest := ih (hadd d decl.value h)
    unfold Declarations.addAll
    simp only
    split <;> exact hrest

/-- Before the first unit is checked nothing wrong is remembered. -/
theorem isFresh_ofManifest (m : Manifest) : (ofManifest m).1.IsFresh := by
  have hempty : IsFresh {} := ⟨rfl, Aliases.sound_of_cache_eq_nil rfl⟩
  refine IsFresh.addAll (fun _ _ h => h.addImplementation _) ?_ m.implementations
  refine IsFresh.addAll (fun _ _ h => h.addConst _) ?_ m.consts
  refine IsFresh.addAll (fun _ _ h => h.addCapability _) ?_ m.capabilities
  exact hempty.addAll (fun _ _ h => h.addAlias _) m.aliases

end Declarations

end Generics
