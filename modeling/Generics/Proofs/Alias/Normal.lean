import Generics.Proofs.Alias.Run
import Generics.Proofs.Capability.Supertraits
import Generics.Proofs.Ty.Canonical

/-!
# Expansion leaves no alias

An expanded type is *normal*: no nominal type in it, applied or not and however deep, has the name of
an alias. A text is expanded through the targets of the aliases it mentions, each of them one level
closer to the limit, so the proof goes by the levels that are left. At each level the names of a type
are offered from the outside in. What replaces a name comes from a target and is normal by the level
below, and the arguments of a name that is kept are looked into.

## Main results

* `Ty.everywhere_of_expandNames`: what replacing names leaves behind;
* `AliasTable.enter_normal`: the target of an alias is expanded to a normal type;
* `Aliases.ask_normal`: every type that a call returns is normal, whatever was declared and asked
  before.
-/

namespace Generics

namespace Ty

/-- The type is `t`, or it stands in `t` at some depth. -/
inductive Within : Ty → Ty → Prop
  | self (t : Ty) : Within t t
  | child {u v t : Ty} (hv : v ∈ t.children) (h : Within u v) : Within u t

/-- What holds everywhere in a type holds of all types in it. -/
theorem Within.of_everywhere {p : Ty → Bool} {u t : Ty} (h : Within u t)
    (ht : t.everywhere p = true) : p u = true := by
  induction h with
  | self => exact (everywhere_iff.mp ht).1
  | child hv _ ih => exact ih ((everywhere_iff.mp ht).2 _ hv)

section ExpandNames

variable {f : String → List Region → List Ty → Except Error (Option Ty)}

theorem forall_of_expandNamesList {P : Ty → Prop} {ts us : List Ty}
    (h : expandNamesList f ts = .ok us) (hP : ∀ t ∈ ts, ∀ u, t.expandNames f = .ok u → P u) :
    ∀ u ∈ us, P u := by
  induction ts generalizing us with
  | nil =>
    obtain rfl := Except.ok.inj h
    exact List.forall_mem_nil P
  | cons t ts ih =>
    obtain ⟨ht, hts⟩ := List.forall_mem_cons.mp hP
    rw [expandNamesList] at h
    obtain ⟨u, hu, h⟩ := exists_ok_of_bind_eq_ok h
    obtain ⟨vs, hvs, h⟩ := exists_ok_of_bind_eq_ok h
    obtain rfl := Except.ok.inj h
    exact List.forall_mem_cons.mpr ⟨ht u hu, ih hvs hts⟩

/-- Replacing names leaves a property behind everywhere, if the types that are put in have it
everywhere, the names that are kept have it, and types that are no names have it anyway. -/
theorem everywhere_of_expandNames {p : Ty → Bool}
    (hother : ∀ t : Ty, (∀ name regions args, t ≠ .named name regions args) → p t = true)
    (hkept : ∀ name regions args, f name regions args = .ok none →
      ∀ args', p (.named name regions args') = true)
    (hput : ∀ name regions args u, f name regions args = .ok (some u) → u.everywhere p = true)
    {t u : Ty} (h : t.expandNames f = .ok u) : u.everywhere p = true := by
  induction t generalizing u with
  | prim name =>
    obtain rfl := Except.ok.inj h
    exact everywhere_iff.mpr ⟨hother _ nofun, nofun⟩
  | var id =>
    obtain rfl := Except.ok.inj h
    exact everywhere_iff.mpr ⟨hother _ nofun, nofun⟩
  | tuple elems ih =>
    rw [expandNames] at h
    obtain ⟨us, hus, h⟩ := exists_ok_of_bind_eq_ok h
    obtain rfl := Except.ok.inj h
    exact everywhere_iff.mpr ⟨hother _ nofun,
      forall_of_expandNamesList hus fun t ht _ htu => ih t ht htu⟩
  | array elem size ih =>
    rw [expandNames] at h
    obtain ⟨v, hv, h⟩ := exists_ok_of_bind_eq_ok h
    obtain rfl := Except.ok.inj h
    exact everywhere_iff.mpr ⟨hother _ nofun, List.forall_mem_singleton.mpr (ih hv)⟩
  | ref region isMut inner ih =>
    rw [expandNames] at h
    obtain ⟨v, hv, h⟩ := exists_ok_of_bind_eq_ok h
    obtain rfl := Except.ok.inj h
    exact everywhere_iff.mpr ⟨hother _ nofun, List.forall_mem_singleton.mpr (ih hv)⟩
  | ptr isMut inner ih =>
    rw [expandNames] at h
    obtain ⟨v, hv, h⟩ := exists_ok_of_bind_eq_ok h
    obtain rfl := Except.ok.inj h
    exact everywhere_iff.mpr ⟨hother _ nofun, List.forall_mem_singleton.mpr (ih hv)⟩
  | fn params ret ih ihret =>
    cases ret with
    | none =>
      rw [expandNames] at h
      obtain ⟨us, hus, h⟩ := exists_ok_of_bind_eq_ok h
      obtain rfl := Except.ok.inj h
      -- a missing return type is the unit type
      have hunit : unit.everywhere p = true := everywhere_iff.mpr ⟨hother _ nofun, nofun⟩
      exact everywhere_iff.mpr ⟨hother _ nofun, List.forall_mem_append.mpr
        ⟨forall_of_expandNamesList hus fun t ht _ htu => ih t ht htu,
          List.forall_mem_singleton.mpr hunit⟩⟩
    | some ret =>
      rw [expandNames] at h
      obtain ⟨us, hus, h⟩ := exists_ok_of_bind_eq_ok h
      obtain ⟨v, hv, h⟩ := exists_ok_of_bind_eq_ok h
      obtain rfl := Except.ok.inj h
      exact everywhere_iff.mpr ⟨hother _ nofun, List.forall_mem_append.mpr
        ⟨forall_of_expandNamesList hus fun t ht _ htu => ih t ht htu,
          List.forall_mem_singleton.mpr (ihret ret rfl hv)⟩⟩
  | named name regions args ih =>
    rw [expandNames] at h
    obtain ⟨replaced, hf, h⟩ := exists_ok_of_bind_eq_ok h
    -- the name is replaced as a whole, or kept with other arguments
    cases replaced with
    | some v =>
      obtain rfl := Except.ok.inj h
      exact hput name regions args _ hf
    | none =>
      obtain ⟨us, hus, h⟩ := exists_ok_of_bind_eq_ok h
      obtain rfl := Except.ok.inj h
      exact everywhere_iff.mpr ⟨hkept name regions args hf us,
        forall_of_expandNamesList hus fun t ht _ htu => ih t ht htu⟩

end ExpandNames

end Ty

namespace AliasTable

variable {t : AliasTable}

/-- The root of the type is no nominal type with the name of an alias. -/
def rootNormal (t : AliasTable) : Ty → Bool
  | .named name _ _ => (t.find? name).isNone
  | _ => true

/-- No nominal type in the type has the name of an alias. -/
def Normal (t : AliasTable) (ty : Ty) : Prop := ty.everywhere t.rootNormal = true

instance (t : AliasTable) (ty : Ty) : Decidable (t.Normal ty) :=
  inferInstanceAs (Decidable (_ = true))

/-- The names that stand in a normal type are no aliases. -/
theorem Normal.find?_eq_none {ty : Ty} (h : t.Normal ty) {name : String} {regions : List Region}
    {args : List Ty} (hwithin : (Ty.named name regions args).Within ty) : t.find? name = none :=
  Option.isNone_iff_eq_none.mp (hwithin.of_everywhere h)

/-! ## One level of expansion -/

section Level

variable {enter : (name target : String) → Except Error Ty}
  (henter : ∀ name target ty, enter name target = .ok ty → t.Normal ty)

include henter

theorem bare_normal {name : String} {ty : Ty} (h : t.bare enter name = .ok ty) : t.Normal ty := by
  unfold bare at h
  split at h
  · cases h
  · split at h
    · cases h
    · exact henter _ _ _ h

theorem application_normal {name : String} {args : List String} {ty : Ty}
    (h : t.application enter name args = .ok ty) : t.Normal ty := by
  unfold application at h
  split at h
  · cases h
  · split at h
    · cases h
    · exact henter _ _ _ h

/-- A name inside a type is kept only if it is no alias, and is replaced by a normal type. -/
theorem nested_normal {name : String} {regions : List Region} {args : List Ty} {replaced : Option Ty}
    (h : t.nested enter name regions args = .ok replaced) :
    (replaced = none → t.find? name = none) ∧ ∀ ty, replaced = some ty → t.Normal ty := by
  unfold nested at h
  split at h
  · rename_i hnone
    obtain rfl := Except.ok.inj h
    exact ⟨fun _ => Option.isNone_iff_eq_none.mp hnone, nofun⟩
  · split at h
    · obtain ⟨ty, hty, rfl⟩ := exists_ok_of_map_eq_ok h
      exact ⟨nofun, fun _ hsome => Option.some.inj hsome ▸ bare_normal henter hty⟩
    · obtain ⟨ty, hty, rfl⟩ := exists_ok_of_map_eq_ok h
      exact ⟨nofun, fun _ hsome => Option.some.inj hsome ▸ application_normal henter hty⟩

theorem expandUnapplied_normal {text : String} {ty : Ty}
    (h : t.expandUnapplied enter text = .ok ty) : t.Normal ty := by
  unfold expandUnapplied at h
  split at h
  · exact bare_normal henter h
  · obtain ⟨parsed, -, h⟩ := exists_ok_of_bind_eq_ok h
    refine Ty.everywhere_of_expandNames ?_ ?_ ?_ h
    · intro u hu
      cases u with
      | named name regions args => exact absurd rfl (hu name regions args)
      | _ => rfl
    · intro name regions args hkept _
      exact Option.isNone_iff_eq_none.mpr ((nested_normal henter hkept).1 rfl)
    · intro name regions args u hput
      exact (nested_normal henter hput).2 u rfl

theorem expandWith_normal {text : String} {ty : Ty} (h : t.expandWith enter text = .ok ty) :
    t.Normal ty := by
  unfold expandWith at h
  split at h
  · split at h
    · exact application_normal henter h
    · exact expandUnapplied_normal henter h
  · exact expandUnapplied_normal henter h

end Level

/-- A printed type that is no use of an alias is expanded name by name. -/
theorem expandWith_render {enter : (name target : String) → Except Error Ty} {ty : Ty}
    (hty : ty.Canonical) (hbare : t.find? ty.render = none)
    (happlied : ∀ p, Alias.splitApplication ty.render = some p → t.find? p.1 = none) :
    t.expandWith enter ty.render = ty.expandNames (t.nested enter) := by
  have hparse : t.expandUnapplied enter ty.render = ty.expandNames (t.nested enter) := by
    rw [expandUnapplied, hbare, hty.spellable.parse_render_of_legible hty.legible]
    rfl
  unfold expandWith
  cases hsplit : Alias.splitApplication ty.render with
  | none => exact hparse
  | some p =>
    simp only [happlied p hsplit]
    exact hparse

/-! ## Expansion to the end -/

/-- However many levels are left, the target of an alias is expanded to a normal type. -/
theorem enter_normal (left : Nat) {chain : List String} {name target : String} {ty : Ty}
    (h : t.enter left chain name target = .ok ty) : t.Normal ty := by
  induction left generalizing chain name target ty with
  | zero => cases h
  | succ left ih => exact expandWith_normal (fun _ _ _ => ih) h

theorem work_normal {call : AliasCall} {ty : Ty} (h : t.work call = .ok ty) : t.Normal ty := by
  have henter : ∀ name target ty, t.enter t.room [] name target = .ok ty → t.Normal ty :=
    fun _ _ _ => enter_normal t.room
  cases call with
  | resolve name => exact bare_normal henter h
  | resolveGeneric name args => exact application_normal henter h
  | expand text => exact expandWith_normal henter h

end AliasTable

namespace Aliases

/-- Whatever was declared and asked before, no nominal type in the answer to a call has the name of an
alias, applied or not and at any depth. -/
theorem ask_normal (maxDepth : Int) (events : List Event) (call : AliasCall) {ty : Ty}
    (h : ((run maxDepth events).aliases.ask call).2 = .ok ty) {name : String} {regions : List Region}
    {args : List Ty} (hwithin : (Ty.named name regions args).Within ty) :
    (run maxDepth events).aliases.table.find? name = none := by
  -- the answer may be remembered, and was worked out all the same
  obtain ⟨asked, -, -, hanswer⟩ := ask_run maxDepth events call
  exact (AliasTable.work_normal (hanswer.symm.trans h)).find?_eq_none hwithin

/-- The target of `Buf` mentions the alias `Byte` twice and the name `Vec`, which stays. The answer is
remembered from an earlier call. -/
theorem ask_normal_of_remembered :
    let aliases : List TypeAlias := [⟨"Byte", [], "u8"⟩, ⟨"Buf", [], "(Vec<Byte>, Byte)"⟩]
    let events : List Event := aliases.map .declare ++ [.ask (.resolve "Buf")]
    let vec : Ty := .named "Vec" [] [.prim "u8"]
    let ty : Ty := .tuple [vec, .prim "u8"]
    ((run 2 events).aliases.ask (.resolve "Buf")).2 = .ok ty ∧ vec.Within ty ∧
      (run 2 events).aliases.table.find? "Vec" = none := by
  intro aliases events vec ty
  let table : AliasTable := ⟨aliases, 2⟩
  have hdeclared : run 2 (aliases.map .declare) = { aliases := ⟨table, []⟩ } :=
    run_declare (by decide +kernel)
  have hbyte : table.nested (table.enter 1 ["Buf"]) "Byte" [] [] = .ok (some (.prim "u8")) := by
    have hu8 : (Ty.prim "u8").Canonical := by decide +kernel
    have henter : table.enter 1 ["Buf"] "Byte" "u8" = .ok (.prim "u8") := by
      rw [AliasTable.enter]
      exact AliasTable.expandWith_render hu8 (by decide +kernel) (by decide +kernel)
    have hfind : table.find? "Byte" = some ⟨"Byte", [], "u8"⟩ := by decide
    rw [AliasTable.nested, AliasTable.bare, hfind]
    show some <$> table.enter 1 ["Buf"] "Byte" "u8" = _
    rw [henter]
    rfl
  have hvec : table.nested (table.enter 1 ["Buf"]) "Vec" [] [.named "Byte" [] []] = .ok none := by
    have hfind : table.find? "Vec" = none := by decide
    rw [AliasTable.nested, hfind]
    rfl
  have hresolve : table.resolve "Buf" = .ok ty := by
    let target : Ty := .tuple [.named "Vec" [] [.named "Byte" [] []], .named "Byte" [] []]
    have htarget : target.Canonical := by decide +kernel
    have hrender : target.render = "(Vec<Byte>, Byte)" := by decide +kernel
    have hfind : table.find? "Buf" = some ⟨"Buf", [], "(Vec<Byte>, Byte)"⟩ := by decide
    calc table.resolve "Buf" = table.enter 2 [] "Buf" "(Vec<Byte>, Byte)" := by
          rw [AliasTable.resolve, AliasTable.bare, hfind]
          rfl
      _ = target.expandNames (table.nested (table.enter 1 ["Buf"])) := by
          rw [AliasTable.enter, ← hrender]
          exact AliasTable.expandWith_render htarget (by decide +kernel) (by decide +kernel)
      _ = .ok ty := by
          simp only [target, Ty.expandNames, Ty.expandNamesList, hvec, hbyte]
          rfl
  have htable : (run 2 events).aliases.table = table := by
    rw [run_append, hdeclared]
    exact ask_table ⟨table, []⟩ (.resolve "Buf")
  have hask : ((run 2 events).aliases.ask (.resolve "Buf")).2 = .ok ty := by
    obtain ⟨asked, -, hquery, hanswer⟩ := ask_run 2 events (.resolve "Buf")
    -- only the same call is remembered under the name
    cases asked with
    | resolve name =>
      obtain rfl : name = "Buf" := by simpa [AliasCall.query] using hquery
      rw [hanswer, htable]
      exact hresolve
    | resolveGeneric name args => cases hquery
    | expand text => cases hquery
  have hwithin : vec.Within ty := .child List.mem_cons_self (.self vec)
  exact ⟨hask, hwithin, ask_normal 2 events (.resolve "Buf") hask hwithin⟩

end Aliases

end Generics
