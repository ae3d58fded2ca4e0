import Generics.Proofs.Capability.Decision

/-!
# Checks side by side

Which capabilities are looked up, which implementations are looked for and which premises are
checked when a bound is checked depends on the catalog alone. A relation between checks that is kept
by all that checks are put together from therefore passes from the premises of a bound to the bound,
as long as both catalogs select the same implementations.

## Main results

* `CheckM.Congruence`: the relation is kept by all that checks are put together from;
* `Catalog.Seeks`: what an implementation is looked for to decide a bound;
* `CheckM.Congruence.checkBound_succ`: one level of the recursion.
-/

namespace Generics

/-! ## Relations between checks -/

namespace CheckM

/-- The relation between checks is kept by all that checks are put together from. -/
structure Congruence (R : {α : Type} → CheckM α → CheckM α → Prop) : Prop where
  of_pure {α : Type} (a : α) : R (pure a) (pure a)
  of_throw {α : Type} (e : Error) : R (throw e : CheckM α) (throw e)
  bind {α β : Type} {m m' : CheckM α} {f f' : α → CheckM β} (hm : R m m')
    (hf : ∀ a, R (f a) (f' a)) : R (m >>= f) (m' >>= f')
  explaining {α : Type} {m m' : CheckM α} (hm : R m m') (explain : Error → Error) :
    R (m.explaining explain) (m'.explaining explain)
  remembering {m m' : CheckM Unit} (hm : R m m') (generation : Nat) (key : String) :
    R (remembering generation key m) (remembering generation key m')

variable {R : {α : Type} → CheckM α → CheckM α → Prop} {α β : Type}

/-- After the same step outside the checks. -/
theorem Congruence.lift_bind (hR : Congruence R) {x : Except Error α} {f f' : α → CheckM β}
    (hf : ∀ a, x = .ok a → R (f a) (f' a)) : R (liftM x >>= f) (liftM x >>= f') := by
  cases x with
  | ok a => exact hf a rfl
  | error e => exact hR.of_throw e

theorem Congruence.forM (hR : Congruence R) {l : List α} {f f' : α → CheckM Unit}
    (h : ∀ a ∈ l, R (f a) (f' a)) : R (l.forM f) (l.forM f') := by
  induction l with
  | nil => exact hR.of_pure ()
  | cons a l ih =>
    obtain ⟨hhead, htail⟩ := List.forall_mem_cons.mp h
    exact hR.bind hhead fun _ => ih htail

end CheckM

/-! ## What is looked for -/

namespace Catalog

/-- To decide whether the type satisfies the bound, leaving premises aside, an implementation of the
capability is looked for, for the type and the filled-in arguments. -/
inductive Seeks (c : Catalog) (t : Ty) (b : Bound) : String → List Ty → Prop
  /-- Of the capability itself. -/
  | own {cap : Capability} {args : List Ty} (hkind : b.kind.isRegional = false)
      (hfind : c.find? b.capability = some cap) (hargs : cap.fillArgs b.args = .ok args) :
      Seeks c t b b.capability args
  /-- Of a supertrait. -/
  | supertrait {super : String} {cap : Capability} {args : List Ty}
      (hkind : b.kind.isRegional = false) (hsuper : c.IsSupertrait b.capability super)
      (hfind : c.find? super = some cap) (hargs : cap.fillArgs [] = .ok args) :
      Seeks c t b super args

theorem Seeks.isRegional_eq_false {c : Catalog} {t : Ty} {b : Bound} {capability : String}
    {args : List Ty} (h : c.Seeks t b capability args) : b.kind.isRegional = false := by
  cases h with
  | own hkind _ _ => exact hkind
  | supertrait hkind _ _ _ => exact hkind

/-- Looking up a capability takes the declared capabilities only. -/
theorem find_congr {c c' : Catalog} (h : c'.capabilities = c.capabilities) : c'.find = c.find := by
  funext name
  rw [find, find, find?, find?, h]

/-- Collecting supertraits takes the declared capabilities only. -/
theorem supertraits_congr {c c' : Catalog} (h : c'.capabilities = c.capabilities) :
    c'.supertraits = c.supertraits := by
  funext name
  rw [supertraits, supertraits, find_congr h, h]

end Catalog

/-! ## The steps of a check -/

namespace CheckM.Congruence

variable {R : {α : Type} → CheckM α → CheckM α → Prop} (hR : Congruence R) {c c' : Catalog}
  {check check' : Ty → Bound → CheckM Unit}
include hR

/-- Verdicts on the same number of declarations count alike. -/
theorem checkBoundsWith (hgeneration : c'.generation = c.generation) {t : Ty} {bounds : List Bound}
    (hcheck : ∀ b ∈ bounds, R (check t b) (check' t b)) :
    R (c.checkBoundsWith check t bounds) (c'.checkBoundsWith check' t bounds) := by
  unfold Catalog.checkBoundsWith
  rw [hgeneration]
  exact hR.remembering (hR.forM hcheck) _ _

theorem checkClauses (hgeneration : c'.generation = c.generation) {explain : Error → Error}
    {sel : Selection} {clauses : List WhereClause}
    (hcheck : ∀ q ∈ sel.questions clauses, ∀ b ∈ q.bounds, R (check q.type b) (check' q.type b)) :
    R (c.checkClauses check explain sel clauses) (c'.checkClauses check' explain sel clauses) := by
  induction clauses generalizing sel with
  | nil => exact hR.of_pure sel
  | cons clause clauses ih =>
    rw [Selection.questions] at hcheck
    obtain ⟨hhead, htail⟩ := List.forall_mem_cons.mp hcheck
    exact hR.bind (hR.explaining (hR.checkBoundsWith hgeneration hhead) explain) fun _ => ih htail

/-- The same implementation is selected, or none is. -/
theorem selectWith (hgeneration : c'.generation = c.generation) {capability : String} {t : Ty}
    {args : List Ty} (hselect : c'.select? capability t args = c.select? capability t args)
    (hcheck : ∀ sel, c.FirstMatch capability t args sel → ∀ q ∈ sel.conditions, ∀ b ∈ q.bounds,
      R (check q.type b) (check' q.type b)) :
    R (c.selectWith check capability t args) (c'.selectWith check' capability t args) := by
  unfold Catalog.selectWith
  rw [hselect]
  cases hsel : c.select? capability t args with
  | none => exact hR.of_throw _
  | some sel =>
    exact hR.checkClauses hgeneration (hcheck sel (Catalog.select?_eq_some_iff.mp hsel))

theorem checkArguments {fails : String → Error} {params : List CapabilityParam} {args : List Ty}
    (hcheck : ∀ p ∈ params.zip args, ∀ b ∈ p.1.bounds, R (check p.2 b) (check' p.2 b)) :
    R (Catalog.checkArguments check fails params args)
      (Catalog.checkArguments check' fails params args) :=
  hR.forM fun p hp => hR.forM fun b hb => hR.explaining (hcheck p hp b hb) _

/-- The same supertraits are looked up, and each is selected alike. -/
theorem checkSupertraitsWith (hcapabilities : c'.capabilities = c.capabilities)
    (hgeneration : c'.generation = c.generation) {fails : String → Error} {t : Ty}
    {names : List String}
    (hselect : ∀ name ∈ names, ∀ cap args, c.find? name = some cap → cap.fillArgs [] = .ok args →
      c'.select? name t args = c.select? name t args)
    (hcheck : ∀ name ∈ names, ∀ q ∈ c.conditions name t [], ∀ b ∈ q.bounds,
      R (check q.type b) (check' q.type b)) :
    R (c.checkSupertraitsWith check fails t names)
      (c'.checkSupertraitsWith check' fails t names) := by
  refine hR.forM fun name hname => ?_
  rw [Catalog.find_congr hcapabilities]
  refine hR.lift_bind fun super hfind => ?_
  rw [Catalog.find_eq_ok_iff] at hfind
  cases hargs : super.fillArgs [] with
  | error e => exact hR.of_throw _
  | ok args =>
    -- the same implementation is selected, and its conditions are checked alike
    have hselects := hR.selectWith hgeneration (hselect name hname super args hfind hargs)
      fun sel hmatch q hq =>
        hcheck name hname q ⟨sel, (Catalog.selects_iff hfind hargs).mpr hmatch, hq⟩
    exact hR.bind (hR.explaining hselects _) fun _ => hR.of_pure ()

/-- A bound on regions has no premises. -/
theorem checkBound_of_isRegional (c c' : Catalog) {b : Bound} (hkind : b.kind.isRegional = true)
    (depth depth' : Nat) (opened : List String) (t : Ty) :
    R (c.checkBound (depth + 1) opened t b) (c'.checkBound (depth' + 1) opened t b) := by
  rw [Catalog.checkBound, Catalog.checkBound, if_pos hkind, if_pos hkind]
  exact hR.of_pure ()

/-- One level of the recursion: checks of a bound are related if those of its premises are and the
same implementations are selected. -/
theorem checkBound_succ (hcapabilities : c'.capabilities = c.capabilities)
    (hgeneration : c'.generation = c.generation) (depth depth' : Nat) {opened : List String}
    {t : Ty} {b : Bound}
    (hselect : ∀ capability args, c.Seeks t b capability args →
      c'.select? capability t args = c.select? capability t args)
    (hcheck : ∀ opened t' b', (b'.kind.isRegional = false → c.IsPremise (t', b') (t, b)) →
      R (c.checkBound depth opened t' b') (c'.checkBound depth' opened t' b')) :
    R (c.checkBound (depth + 1) opened t b) (c'.checkBound (depth' + 1) opened t b) := by
  cases hkind : b.kind.isRegional with
  | true => exact hR.checkBound_of_isRegional c c' hkind depth depth' opened t
  | false =>
    rw [Catalog.checkBound, Catalog.checkBound, hkind, Catalog.find_congr hcapabilities,
      Catalog.supertraits_congr hcapabilities]
    refine hR.lift_bind fun cap hfind => hR.lift_bind fun args hargs => ?_
    rw [Catalog.find_eq_ok_iff] at hfind
    simp only [← Question.key_singleton]
    split
    · exact hR.of_throw _
    · rw [Catalog.find?_name hfind]
      have hquestion : ∀ q, c.Asks t b q → ∀ b' ∈ q.bounds, ∀ opened,
          R (c.checkBound depth opened q.type b') (c'.checkBound depth' opened q.type b') :=
        fun q hq b' hb' opened => hcheck opened q.type b' fun _ => ⟨hkind, q, hq, rfl, hb'⟩
      -- the implementation, the arguments and the supertraits, in the order of the check
      refine hR.bind (hR.selectWith hgeneration (hselect _ _ (.own hkind hfind hargs)) ?_) fun _ =>
        hR.bind (hR.checkArguments ?_) fun _ => hR.lift_bind fun names hnames =>
          hR.checkSupertraitsWith hcapabilities hgeneration ?_ ?_
      · intro sel hmatch q hq b' hb'
        have hcondition : q ∈ c.conditions b.capability t b.args :=
          ⟨sel, (Catalog.selects_iff hfind hargs).mpr hmatch, hq⟩
        exact hquestion q (.condition hcondition) b' hb' _
      · intro p hp b' hb'
        exact hcheck _ p.2 b' fun hkind' =>
          ⟨hkind, _, .argument hfind hargs hp hb' hkind', rfl, List.mem_cons_self⟩
      · intro name hname super filled hfind' hargs'
        have hsuper := (Catalog.mem_supertraits_iff hnames).mp hname
        exact hselect _ _ (.supertrait hkind hsuper hfind' hargs')
      · intro name hname q hq b' hb'
        have hsuper := (Catalog.mem_supertraits_iff hnames).mp hname
        exact hquestion q (.supertrait hsuper hq) b' hb' _

/-- Checks of a list of bounds are related if those of the single bounds are. -/
theorem checkBounds (hgeneration : c'.generation = c.generation) (depth depth' : Nat) {t : Ty}
    {bounds : List Bound}
    (hcheck : ∀ b ∈ bounds, R (c.checkBound depth [] t b) (c'.checkBound depth' [] t b)) :
    R (c.checkBounds depth t bounds) (c'.checkBounds depth' t bounds) :=
  hR.checkBoundsWith hgeneration hcheck

end CheckM.Congruence

end Generics
