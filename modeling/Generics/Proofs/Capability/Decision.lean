import Generics.Proofs.Capability.Outcome
import Generics.Proofs.Capability.Satisfaction

/-!
# Checking decides satisfaction

Checking a bound recurses through conditions, arguments and supertraits. It fails on a bound that is
being checked already, and it remembers verdicts, also those given in the middle of such a circle,
for all later checks. This module shows that all this makes no difference: whenever a check has an
answer, the answer is a success exactly if the type satisfies the bounds.

Verdicts and open bounds are kept under their written form. The results assume that no two questions
that come up are written alike.

## Main results

* `Catalog.Awaited.not_satisfies`: a bound met again while it is being checked is not satisfied.
* `Catalog.decides_checkBound`: one bound, while others are being checked.
* `Catalog.decides_checkBounds`: the bounds of a type, with verdicts remembered.
-/

namespace Generics

/-- What the verdict on the question is remembered under. -/
def Question.key (q : Question) : String := Catalog.verdictKey q.type q.bounds

/-- No two of the questions are written alike, up to the order of bounds and to repetitions. -/
def Legible (D : Set Question) : Prop :=
  ∀ q ∈ D, ∀ q' ∈ D, q.key = q'.key → q.type = q'.type ∧ ∀ b, b ∈ q.bounds ↔ b ∈ q'.bounds

/-- A single bound being checked is written like the question that consists of it. -/
theorem Question.key_singleton (t : Ty) (b : Bound) :
    Question.key ⟨t, [b]⟩ = s!"{t.render}: {b.render}" := by
  have hdups : [b.render].eraseDups = [b.render] := by
    simp [List.eraseDups_cons]
  have hjoin : " + ".intercalate [b.render] = b.render := by
    simp [String.intercalate_singleton]
  show t.render ++ ": " ++ " + ".intercalate ([b.render].mergeSort _).eraseDups
    = t.render ++ ": " ++ b.render
  rw [List.mergeSort_singleton, hdups, hjoin]

/-- Fewer questions are still legible. -/
theorem Legible.mono {D D' : Set Question} (h : Legible D') (hsub : D ⊆ D') : Legible D :=
  fun q hq q' hq' => h q (hsub hq) q' (hsub hq')

/-- Questions that are written alike have the same answer. -/
theorem Legible.holds_iff {D : Set Question} (h : Legible D) {c : Catalog} {q q' : Question}
    (hq : q ∈ D) (hq' : q' ∈ D) (hkey : q.key = q'.key) : c.Holds q ↔ c.Holds q' := by
  obtain ⟨htype, hbounds⟩ := h q hq q' hq' hkey
  simp only [Catalog.Holds, htype, hbounds]

namespace VerdictCache

/-- A verdict that still counts was remembered under the key at the present generation. -/
theorem mem_of_verdict? {cache : VerdictCache} {generation : Nat} {key : String}
    {verdict : Except Error Unit} (h : cache.verdict? generation key = some verdict) :
    (key, RememberedVerdict.mk generation verdict) ∈ cache := by
  unfold verdict? at h
  split at h
  · rename_i v hlookup
    split at h
    · rename_i hgeneration
      obtain rfl := Option.some.inj h
      rw [← hgeneration]
      exact mem_of_lookup hlookup
    · cases h
  · cases h

/-- Remembering a verdict adds no other entry. -/
theorem mem_remember {cache : VerdictCache} {key : String} {v : RememberedVerdict}
    {e : String × RememberedVerdict} (h : e ∈ cache.remember key v) : e = (key, v) ∨ e ∈ cache := by
  rcases List.mem_cons.mp h with h | h
  · exact .inl h
  · exact .inr ((List.mem_filter.mp h).1)

end VerdictCache

namespace Catalog

/-- No remembered verdict is newer than the catalog, and those that still count are right about one
of the questions `D`. -/
def SoundCache (c : Catalog) (D : Set Question) (cache : VerdictCache) : Prop :=
  ∀ e ∈ cache, e.2.generation ≤ c.generation ∧
    (e.2.generation = c.generation →
      ∃ q ∈ D, q.key = e.1 ∧ (e.2.verdict.isOk = true ↔ c.Holds q))

/-- Verdicts that are right whenever the questions asked so far are legible stay right when more
questions come up. -/
theorem SoundCache.union {c : Catalog} {A B : Set Question} {cache : VerdictCache}
    (h : Legible A → c.SoundCache A cache) (hlegible : Legible (A ∪ B)) :
    c.SoundCache (A ∪ B) cache := by
  intro e he
  obtain ⟨hle, hright⟩ := h (hlegible.mono Set.subset_union_left) e he
  refine ⟨hle, fun hgeneration => ?_⟩
  obtain ⟨q, hq, hkey, hverdict⟩ := hright hgeneration
  exact ⟨q, .inl hq, hkey, hverdict⟩

/-! ## The steps of a check -/

section Steps

variable {c : Catalog} {D : Set Question} {check : Ty → Bound → CheckM Unit}

/-- A remembered verdict is as good as the check of all bounds. -/
theorem decides_checkBoundsWith (hlegible : Legible D) {q : Question} (hq : q ∈ D)
    (hcheck : ∀ b ∈ q.bounds,
      CheckM.Decides (c.SoundCache D) (check q.type b) (c.Satisfies q.type b)) :
    CheckM.Decides (c.SoundCache D) (c.checkBoundsWith check q.type q.bounds) (c.Holds q) := by
  intro cache outcome cache' hcache hrun
  unfold checkBoundsWith at hrun
  cases hverdict : cache.verdict? c.generation (verdictKey q.type q.bounds) with
  | some verdict =>
    -- the verdict read was given on some question with the same key, which has the same answer
    rw [CheckM.run_remembering_of_some _ hverdict] at hrun
    obtain ⟨rfl, rfl⟩ := Prod.mk.inj (Option.some.inj hrun)
    have hmem := VerdictCache.mem_of_verdict? hverdict
    obtain ⟨q', hq', hkey, hright⟩ := (hcache _ hmem).2 rfl
    exact ⟨hcache, hright.trans (hlegible.holds_iff hq' hq hkey)⟩
  | none =>
    -- the verdict is new; the checks inside may have remembered others, all of them right
    rw [CheckM.run_remembering_of_none _ hverdict] at hrun
    obtain ⟨⟨verdict, between⟩, hfirst, hrun⟩ := Option.bind_eq_some_iff.mp hrun
    obtain ⟨rfl, rfl⟩ := Prod.mk.inj (Option.some.inj hrun)
    obtain ⟨hbetween, hright⟩ := CheckM.decides_forM hcheck cache verdict between hcache hfirst
    refine ⟨fun e he => ?_, hright⟩
    rcases VerdictCache.mem_remember he with rfl | he
    · exact ⟨Nat.le_refl _, fun _ => ⟨q, hq, rfl, hright⟩⟩
    · exact hbetween e he

variable {I : VerdictCache → Prop}

/-- The conditions of a selection are checked one after the other. -/
theorem decides_checkClauses {explain : Error → Error} {sel : Selection}
    {clauses : List WhereClause}
    (hcheck : ∀ q ∈ sel.questions clauses,
      CheckM.Decides I (c.checkBoundsWith check q.type q.bounds) (c.Holds q)) :
    CheckM.Decides I (c.checkClauses check explain sel clauses)
      (∀ q ∈ sel.questions clauses, c.Holds q) := by
  induction clauses generalizing sel with
  | nil => exact CheckM.decides_pure (by simp [Selection.questions])
  | cons clause clauses ih =>
    rw [Selection.questions] at hcheck ⊢
    obtain ⟨hhead, htail⟩ := List.forall_mem_cons.mp hcheck
    exact ((hhead.explaining explain).bind fun _ _ => ih htail).congr List.forall_mem_cons.symm

/-- Selecting an implementation decides whether one matches with its conditions satisfied. -/
theorem decides_selectWith {capability : String} {t : Ty} {args : List Ty}
    (hcheck : ∀ sel, c.FirstMatch capability t args sel → ∀ q ∈ sel.conditions,
      CheckM.Decides I (c.checkBoundsWith check q.type q.bounds) (c.Holds q)) :
    CheckM.Decides I (c.selectWith check capability t args)
      (∃ sel, c.FirstMatch capability t args sel ∧ ∀ q ∈ sel.conditions, c.Holds q) := by
  unfold selectWith
  cases hselect : c.select? capability t args with
  | none =>
    refine CheckM.decides_throw ?_
    rintro ⟨sel, hmatch, -⟩
    rw [select?_eq_some_iff.mpr hmatch] at hselect
    cases hselect
  | some sel =>
    have hmatch := select?_eq_some_iff.mp hselect
    refine (decides_checkClauses (hcheck sel hmatch)).congr ⟨fun h => ⟨sel, hmatch, h⟩, ?_⟩
    rintro ⟨sel', hmatch', h⟩
    rwa [hmatch.unique hmatch']

/-- A check that looks up a capability and fills in its arguments decides what it goes on to decide,
if that requires the capability to be declared and the arguments to suffice. -/
theorem decides_find_fillArgs {α : Type} {capability : String} {args : List Ty} {P : Prop}
    {f : Capability → List Ty → CheckM α}
    (hP : P → ∃ cap filled, c.find? capability = some cap ∧ cap.fillArgs args = .ok filled)
    (hf : ∀ cap filled, c.find? capability = some cap → cap.fillArgs args = .ok filled →
      CheckM.Decides I (f cap filled) P) :
    CheckM.Decides I (do
      let cap ← c.find capability
      let filled ← cap.fillArgs args
      f cap filled) P := by
  refine CheckM.Decides.lift_bind (fun cap hfind => ?_) fun h => ?_
  · rw [find_eq_ok_iff] at hfind
    refine CheckM.Decides.lift_bind (fun filled hargs => hf cap filled hfind hargs) fun h => ?_
    obtain ⟨cap', filled, hfind', hargs⟩ := hP h
    obtain rfl := Option.some.inj (hfind.symm.trans hfind')
    exact ⟨filled, hargs⟩
  · obtain ⟨cap, -, hfind, -⟩ := hP h
    exact ⟨cap, find_eq_ok_iff.mpr hfind⟩

/-- The bounds of the parameters are checked on the arguments. -/
theorem decides_checkArguments {fails : String → Error} {params : List CapabilityParam}
    {args : List Ty}
    (hcheck : ∀ p ∈ params.zip args, ∀ b ∈ p.1.bounds,
      CheckM.Decides I (check p.2 b) (c.Satisfies p.2 b)) :
    CheckM.Decides I (checkArguments check fails params args)
      (∀ p ∈ params.zip args, ∀ b ∈ p.1.bounds, c.Satisfies p.2 b) :=
  CheckM.decides_forM fun p hp => CheckM.decides_forM fun b hb => (hcheck p hp b hb).explaining _

/-- Each of the supertraits is selected with its arguments left to their defaults. -/
theorem decides_checkSupertraitsWith {fails : String → Error} {t : Ty} {names : List String}
    (hcheck : ∀ name ∈ names, ∀ q ∈ c.conditions name t [],
      CheckM.Decides I (c.checkBoundsWith check q.type q.bounds) (c.Holds q)) :
    CheckM.Decides I (c.checkSupertraitsWith check fails t names)
      (∀ name ∈ names, c.Implements name t []) := by
  refine CheckM.decides_forM fun name hname => ?_
  refine CheckM.Decides.lift_bind (fun super hfind => ?_) fun h => ?_
  · rw [find_eq_ok_iff] at hfind
    cases hargs : super.fillArgs [] with
    | error e =>
      -- defaults that do not fit implement nothing
      refine CheckM.decides_throw fun h => ?_
      obtain ⟨cap, args, hfind', hargs'⟩ := h.exists_cap
      obtain rfl := Option.some.inj (hfind.symm.trans hfind')
      rw [hargs] at hargs'
      cases hargs'
    | ok args =>
      have hselect := decides_selectWith fun sel hmatch q hq =>
        hcheck name hname q ⟨sel, (selects_iff hfind hargs).mpr hmatch, hq⟩
      rw [implements_iff hfind hargs]
      exact ((hselect.explaining _).bind fun _ _ => CheckM.decides_pure trivial).congr
        (and_iff_left trivial)
  · obtain ⟨cap, -, hfind, -⟩ := h.exists_cap
    exact ⟨cap, find_eq_ok_iff.mpr hfind⟩

end Steps

/-! ## The recursion -/

/-- The questions that come up when some questions are decided: their single bounds, what is asked
in deciding these, and so on. -/
inductive Arises (c : Catalog) (roots : Set Question) : Question → Prop
  | root {q : Question} (hq : q ∈ roots) : Arises c roots q
  | bound {q : Question} {b : Bound} (h : Arises c roots q) (hb : b ∈ q.bounds)
      (hkind : b.kind.isRegional = false) : Arises c roots ⟨q.type, [b]⟩
  | asked {t : Ty} {b : Bound} {q : Question} (h : Arises c roots ⟨t, [b]⟩)
      (hkind : b.kind.isRegional = false) (hq : c.Asks t b q) : Arises c roots q

/-- All questions that come up when some questions are decided. -/
def arising (c : Catalog) (roots : Set Question) : Set Question := {q | c.Arises roots q}

/-- A set of questions that is closed under what comes up holds all that comes up. -/
theorem arising_subset {c : Catalog} {roots S : Set Question} (hroots : roots ⊆ S)
    (hbound : ∀ q ∈ S, ∀ b ∈ q.bounds, ⟨q.type, [b]⟩ ∈ S)
    (hasked : ∀ t b, ⟨t, [b]⟩ ∈ S → ∀ q, c.Asks t b q → q ∈ S) : c.arising roots ⊆ S := by
  intro q hq
  induction hq with
  | root hq => exact hroots hq
  | bound _ hb _ ih => exact hbound _ ih _ hb
  | asked _ _ hasks ih => exact hasked _ _ ih _ hasks

/-- What is asked in deciding a question that comes up comes up itself, and so do its single
bounds. -/
theorem mem_arising_of_isPremise {c : Catalog} {roots : Set Question} {t t' : Ty} {b b' : Bound}
    (h : ⟨t, [b]⟩ ∈ c.arising roots) (hp : c.IsPremise (t', b') (t, b))
    (hkind : b'.kind.isRegional = false) : ⟨t', [b']⟩ ∈ c.arising roots := by
  obtain ⟨hkind', q, hasks, rfl, hb'⟩ := hp
  exact .bound (.asked h hkind' hasks) hb' hkind

/-- Each of the bounds that are being checked is one of the questions `D` and has the bound of the
type among its premises, directly or through others. -/
def Awaited (c : Catalog) (D : Set Question) (opened : List String) (t : Ty) (b : Bound) : Prop :=
  ∀ o ∈ opened, ∃ p : Ty × Bound, Question.key ⟨p.1, [p.2]⟩ = o ∧ ⟨p.1, [p.2]⟩ ∈ D ∧
    Relation.TransGen c.IsPremise (t, b) p

section Recursion

variable {c : Catalog} {D roots : Set Question}

/-- A premise of a bound is awaited by the bound and by all that await it. -/
theorem Awaited.premise {opened : List String} {t t' : Ty} {b b' : Bound}
    (h : c.Awaited D opened t b) (hq : ⟨t, [b]⟩ ∈ D) (hp : c.IsPremise (t', b') (t, b)) :
    c.Awaited D (Question.key ⟨t, [b]⟩ :: opened) t' b' := by
  intro o ho
  rcases List.mem_cons.mp ho with rfl | ho
  · exact ⟨(t, b), rfl, hq, .single hp⟩
  · obtain ⟨p, hkey, hD, hpath⟩ := h o ho
    exact ⟨p, hkey, hD, .head hp hpath⟩

/-- A bound that is met again while it is being checked is not satisfied. It is its own premise,
whatever else is being checked. -/
theorem Awaited.not_satisfies (hlegible : Legible D) {opened : List String} {t : Ty} {b : Bound}
    (h : c.Awaited D opened t b) (hq : ⟨t, [b]⟩ ∈ D) (hopen : Question.key ⟨t, [b]⟩ ∈ opened) :
    ¬ c.Satisfies t b := by
  obtain ⟨⟨t', b'⟩, hkey, hq', hpath⟩ := h _ hopen
  -- the open bound is written like this one, so it is this one, and the path to it is a circle
  obtain ⟨htype, hbounds⟩ := hlegible _ hq' _ hq hkey
  obtain rfl : t' = t := htype
  obtain rfl : b' = b := by simpa using (hbounds b').mp List.mem_cons_self
  exact not_satisfies_of_cycle hpath

/-- One level of the recursion: if the premises of a bound are decided, so is the bound. -/
theorem decides_of_premises (hlegible : Legible D) {check : Ty → Bound → CheckM Unit}
    {fails : String → Error} {t : Ty} {b : Bound} {cap : Capability} {args : List Ty}
    (hkind : b.kind.isRegional = false) (hfind : c.find? b.capability = some cap)
    (hargs : cap.fillArgs b.args = .ok args) (hasked : ∀ q, c.Asks t b q → q ∈ D)
    (hcheck : ∀ t' b', (b'.kind.isRegional = false → c.IsPremise (t', b') (t, b)) →
      CheckM.Decides (c.SoundCache D) (check t' b') (c.Satisfies t' b')) :
    CheckM.Decides (c.SoundCache D) (do
      let _ ← c.selectWith check b.capability t args
      checkArguments check fails cap.params args
      c.checkSupertraitsWith check fails t (← c.supertraits b.capability)) (c.Satisfies t b) := by
  have hquestion : ∀ q, c.Asks t b q →
      CheckM.Decides (c.SoundCache D) (c.checkBoundsWith check q.type q.bounds) (c.Holds q) :=
    fun q hq => decides_checkBoundsWith hlegible (hasked q hq) fun b' hb' =>
      hcheck q.type b' fun _ => ⟨hkind, q, hq, rfl, hb'⟩
  -- the four parts of satisfaction are checked in the order in which `satisfies_iff` lists them
  rw [satisfies_iff hkind hfind hargs, implements_iff hfind hargs]
  refine CheckM.Decides.bind (decides_selectWith fun sel hmatch q hq => ?_) fun _ _ =>
    CheckM.Decides.bind (decides_checkArguments fun p hp b' hb' => ?_) fun _ _ =>
      CheckM.Decides.lift_bind (fun names hnames => ?_) fun h => h.1
  · exact hquestion q (.condition ⟨sel, (selects_iff hfind hargs).mpr hmatch, hq⟩)
  · exact hcheck p.2 b' fun hkind' =>
      ⟨hkind, _, .argument hfind hargs hp hb' hkind', rfl, List.mem_cons_self⟩
  · refine (decides_checkSupertraitsWith fun name hname q hq => ?_).congr ?_
    · exact hquestion q (.supertrait ((mem_supertraits_iff hnames).mp hname) hq)
    · simp only [hnames, mem_supertraits_iff hnames]
      simp

/-- Checking a bound decides whether it is satisfied, also while others are being checked that await
it. -/
theorem decides_checkBound (hlegible : Legible D) (harising : c.arising roots ⊆ D) (depth : Nat)
    {opened : List String} {t : Ty} {b : Bound}
    (hb : b.kind.isRegional = false → ⟨t, [b]⟩ ∈ c.arising roots ∧ c.Awaited D opened t b) :
    CheckM.Decides (c.SoundCache D) (c.checkBound depth opened t b) (c.Satisfies t b) := by
  induction depth generalizing opened t b with
  | zero => exact CheckM.ensures_unanswered
  | succ depth ih =>
    unfold checkBound
    cases hkind : b.kind.isRegional with
    | true => exact CheckM.decides_pure (.regional hkind)
    | false =>
      obtain ⟨hq, hawaited⟩ := hb hkind
      refine decides_find_fillArgs (fun h => h.exists_cap hkind) fun cap args hfind hargs => ?_
      simp only [← Question.key_singleton]
      split
      · -- the failure does not depend on where the check began
        rename_i hopen
        exact CheckM.decides_throw (hawaited.not_satisfies hlegible (harising hq) hopen)
      · rw [find?_name hfind]
        refine decides_of_premises hlegible hkind hfind hargs ?_ ?_
        · exact fun q hasks => harising (.asked hq hkind hasks)
        · -- a premise is checked with one more bound open, and that bound awaits it
          intro t' b' hp
          exact ih fun hkind' => ⟨mem_arising_of_isPremise hq (hp hkind') hkind',
            hawaited.premise (harising hq) (hp hkind')⟩

/-- A question is decided when no bound is being checked. -/
theorem decides_root (hlegible : Legible D) (harising : c.arising roots ⊆ D) (depth : Nat)
    {q : Question} (hq : c.Arises roots q) :
    CheckM.Decides (c.SoundCache D) (c.checkBoundsWith (c.checkBound depth []) q.type q.bounds)
      (c.Holds q) := by
  refine decides_checkBoundsWith hlegible (harising hq) fun b hb => ?_
  refine decides_checkBound hlegible harising depth fun hkind => ⟨.bound hq hb hkind, ?_⟩
  intro o ho
  cases ho

/-- Checking bounds decides whether the type satisfies all of them. -/
theorem decides_checkBounds (hlegible : Legible D) {t : Ty} {bounds : List Bound}
    (harising : c.arising {⟨t, bounds⟩} ⊆ D) (depth : Nat) :
    CheckM.Decides (c.SoundCache D) (c.checkBounds depth t bounds) (c.Holds ⟨t, bounds⟩) :=
  decides_root (q := ⟨t, bounds⟩) hlegible harising depth (.root rfl)

/-- Selecting an implementation decides whether one matches with its conditions satisfied. -/
theorem decides_select (hlegible : Legible D) {capability : String} {t : Ty} {args : List Ty}
    (harising : c.arising (c.conditions capability t args) ⊆ D) (depth : Nat) :
    CheckM.Decides (c.SoundCache D) (c.select depth capability t args)
      (c.Implements capability t args) := by
  refine decides_find_fillArgs Implements.exists_cap fun cap filled hfind hargs => ?_
  rw [find?_name hfind, implements_iff hfind hargs]
  refine decides_selectWith fun sel hmatch q hq => ?_
  exact decides_root hlegible harising depth (.root ⟨sel, (selects_iff hfind hargs).mpr hmatch, hq⟩)

/-- Finding an associated type keeps the remembered verdicts right. -/
theorem ensures_associatedType (hlegible : Legible D) {capability : String} {t : Ty}
    (harising : c.arising (c.conditions capability t []) ⊆ D) (depth : Nat) (name : String) :
    CheckM.Ensures (c.SoundCache D) (c.associatedType depth capability t name) fun _ => True := by
  refine CheckM.Ensures.lift_bind (fun cap hfind => ?_) fun _ _ => trivial
  simp only
  split
  · exact CheckM.ensures_throw trivial
  · have hselect := decides_select hlegible harising depth
    refine CheckM.Ensures.bind hselect (fun sel _ => ?_) fun _ _ => trivial
    split
    · exact CheckM.ensures_pure trivial
    · exact CheckM.ensures_throw trivial

end Recursion

/-! ## Declarations -/

/-- Verdicts given before a declaration do not count any more. -/
theorem SoundCache.of_generation_lt {c c' : Catalog} {D : Set Question} {cache : VerdictCache}
    (h : c.SoundCache D cache) (hlt : c.generation < c'.generation) : c'.SoundCache D cache := by
  intro e he
  obtain ⟨hle, -⟩ := h e he
  exact ⟨by omega, fun _ => by omega⟩

/-- Declaring a capability is counted. -/
theorem generation_lt_of_declare {c c' : Catalog} {cap : Capability} (h : c.declare cap = .ok c') :
    c.generation < c'.generation := by
  unfold declare at h
  split at h
  · cases h
  · obtain ⟨-, -, h⟩ := exists_ok_of_bind_eq_ok h
    obtain rfl := Except.ok.inj h
    simp only [generation, List.length_append, List.length_singleton]
    omega

/-- Declaring an implementation is counted. -/
theorem generation_lt_of_implement {c c' : Catalog} {i : Implementation}
    (h : c.implement i = .ok c') : c.generation < c'.generation := by
  obtain ⟨cap, -, h⟩ := exists_ok_of_bind_eq_ok h
  obtain ⟨-, -, h⟩ := exists_ok_of_bind_eq_ok h
  obtain ⟨-, -, h⟩ := exists_ok_of_bind_eq_ok h
  obtain ⟨args, -, h⟩ := exists_ok_of_bind_eq_ok h
  obtain rfl := Except.ok.inj h
  simp only [generation, List.length_append, List.length_singleton]
  omega

end Catalog

end Generics
