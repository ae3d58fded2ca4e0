import Generics.Proofs.Manifest.Alike
import Generics.Proofs.Ty.Reading
import Generics.Proofs.Ty.Scan

/-!
# Units do not influence each other

All units of a manifest share its declarations and what is remembered of them. Still the report of a
unit is the same whichever units stand before it, with one exception: if bounds do not hold, then
another of them may be blamed, or another reason may be given.

## Main results

* `Manifest.unit_reports_alike`: the reports of a unit in two manifests that differ in the other units;
* `Manifest.exists_unit_errors_ne`: another unit can change which bound is blamed.
-/

namespace Generics

open Text

/-! ## Units that make one requirement -/

/-- The text is a name that is read as it stands. -/
structure IsBareName (name : String) : Prop where
  ident : Token.isIdent name.toList = true
  notFn : name ≠ "fn"
  trimmed : trim name = name
  unapplied : Alias.splitApplication name = none

/-- A bare name is read as that name. -/
theorem IsBareName.parse {name : String} (h : IsBareName name) :
    Ty.parse name = .ok (Ty.ofName name) := by
  have hread : Ty.read? [.ident name] = some (Ty.ofName name, []) :=
    Ty.read?_name h.notFn (by simp)
  exact Ty.parse_eq_ok_iff.mpr ⟨[.ident name], (Token.spells_ident name h.ident).scan, hread⟩

/-- Where there are no aliases, a name stands for itself. -/
theorem IsBareName.expand {name : String} (h : IsBareName name) {table : AliasTable}
    (hempty : table.aliases = []) : table.expand name = .ok (Ty.ofName name) := by
  have hfind (other : String) : table.find? other = none := by
    rw [AliasTable.find?, hempty]
    rfl
  unfold AliasTable.expand AliasTable.expandWith
  rw [h.unapplied]
  unfold AliasTable.expandUnapplied
  rw [hfind, h.parse]
  show (Ty.ofName name).expandNames _ = _
  unfold Ty.ofName
  split
  · rfl
  · simp only [Ty.expandNames, AliasTable.nested, hfind]
    rfl

/-- Without aliases, a bare name is read as a simple bound. -/
theorem IsBareName.settled_bound {name : String} (h : IsBareName name) {table : AliasTable}
    (hempty : table.aliases = []) (hregion : WrittenConstraint.isRegion name.toList = false)
    (hquantifier : ExpandM.quantifier name = ([], name)) (hprim : Primitive.isName name = false) :
    ExpandM.Settled table (ExpandM.bound name) (.ok (.simple name)) := by
  have htype := ExpandM.settled_type table name
  rw [h.trimmed, h.expand hempty, Ty.ofName, hprim] at htype
  unfold ExpandM.bound
  simp only [h.trimmed, hregion, hquantifier]
  exact htype.bind (ExpandM.settled_pure _ _)

/-- Nothing is resolved in a primitive type. -/
theorem Session.apply_prim (s : Session) (name : String) : s.apply (.prim name) = .prim name := by
  unfold Session.apply Subst.apply
  split <;> rfl

namespace UnitM

variable {table : AliasTable} {type name : String} {texts : List String} {bs : List Bound}
  {u : UnitRun}

/-- The texts of a requirement stand for a primitive type and bounds. -/
structure Reads (table : AliasTable) (type : String) (texts : List String) (name : String)
    (bs : List Bound) : Prop where
  hole : Hole.nameAll type = (type, 0)
  type_eq : table.expand (trim type) = .ok (.prim name)
  bounds_eq : ExpandM.Settled table (texts.mapM ExpandM.bound) (.ok bs)

/-- Reading the type of a requirement changes no more than what is remembered of aliases. -/
theorem Reads.run_term (h : Reads table type texts name bs) (hnames : u.names = [])
    (htable : u.session.aliases.table = table) (hsound : u.session.aliases.Sound) (origin : Origin) :
    ∃ a : Aliases, a.table = table ∧ a.Sound ∧ (term origin type).run.run u =
      some (.ok (.prim name), { u with session := { u.session with aliases := a } }) := by
  obtain ⟨hanswer, htable', hsound'⟩ := hsound.expand type
  refine ⟨(u.session.aliases.expand type).1, htable'.trans htable, hsound', ?_⟩
  have hannotate : u.session.annotate origin type =
      ({ u.session with aliases := (u.session.aliases.expand type).1 }, .ok (.prim name)) := by
    unfold Session.annotate
    rw [h.hole]
    simp only [hanswer, htable, h.type_eq]
    rfl
  have hterm : (term origin type).run.run u =
      (request fun s => s.annotate origin type).run.run u := by
    unfold term
    rw [run_get_bind, hnames]
    rfl
  rw [hterm, run_request, hannotate]

/-- Reading the bounds of a requirement changes no more than what is remembered of aliases. -/
theorem Reads.run_bounds (h : Reads table type texts name bs)
    (htable : u.session.aliases.table = table) (hsound : u.session.aliases.Sound) (origin : Origin) :
    ∃ a : Aliases, a.table = table ∧ a.Sound ∧ (bounds origin texts).run.run u =
      some (.ok bs, { u with session := { u.session with aliases := a } }) := by
  obtain ⟨hok, htable', hsound'⟩ := h.bounds_eq u.session.aliases htable hsound
  obtain ⟨a, hrun⟩ : ∃ a, (texts.mapM ExpandM.bound).run.run u.session.aliases = (.ok bs, a) :=
    ⟨_, Prod.ext hok rfl⟩
  rw [hrun] at htable' hsound'
  refine ⟨a, htable', hsound', ?_⟩
  unfold bounds
  rw [run_request, hrun]

/-- Such a requirement is one check of bounds, and no others come up. -/
theorem Reads.run_step (h : Reads table type texts name bs) (hnames : u.names = [])
    (htable : u.session.aliases.table = table) (hsound : u.session.aliases.Sound) (origin : Origin)
    (depth : Nat) :
    asked origin u (.require type texts) ⊆ u.session.registry.catalog.arising {⟨.prim name, bs⟩} ∧
    ∃ a : Aliases, a.table = table ∧ a.Sound ∧
      (step depth origin (.require type texts)).run.run u =
        (Session.require { u.session with aliases := a } depth origin (.prim name) bs).map fun p =>
          (p.2, { u with session := p.1 }) := by
  obtain ⟨a, hatable, hasound, hterm⟩ := h.run_term hnames htable hsound origin
  obtain ⟨a', hatable', hasound', hbounds⟩ :=
    h.run_bounds (u := { u with session := { u.session with aliases := a } }) hatable hasound origin
  constructor
  · rintro q ⟨t, v, bs', w, ht, hbs', hq⟩
    obtain ⟨htype, rfl⟩ := Prod.mk.inj (Option.some.inj (hterm.symm.trans ht))
    obtain rfl := Except.ok.inj htype
    obtain ⟨htexts, rfl⟩ := Prod.mk.inj (Option.some.inj (hbounds.symm.trans hbs'))
    obtain rfl := Except.ok.inj htexts
    rw [Session.asked, Session.apply_prim] at hq
    exact hq.2
  · refine ⟨a', hatable', hasound', ?_⟩
    unfold step
    rw [run_bind, hterm]
    show (bounds origin texts >>= _ : UnitM Unit).run.run _ = _
    rw [run_bind, hbounds]
    exact run_ask _ _

end UnitM

namespace CodeUnit

/-- A unit that makes one requirement. -/
def requiring (name type : String) (texts : List String) : CodeUnit :=
  ⟨name, [⟨.require type texts, ⟨1, 1⟩⟩]⟩

theorem check_requiring {table : AliasTable} {type name : String} {texts : List String}
    {bs : List Bound} (h : UnitM.Reads table type texts name bs) {d : Declarations}
    (htable : d.aliases.table = table) (hsound : d.aliases.Sound) {depth : Nat} {r : Registry}
    {e : Error} (hrun : d.registry.checkBounds depth (.prim name) bs = some (r, .error e))
    (unitName : String) :
    (requiring unitName type texts).asked depth d ⊆
        d.registry.catalog.arising {⟨.prim name, bs⟩} ∧
      ∃ a result, a.table = table ∧ a.Sound ∧
        (requiring unitName type texts).check depth d =
          some ({ d with registry := r, aliases := a }, result) ∧
        result.errors.map Diagnostic.problem = [.coded e] := by
  let start : UnitRun :=
    { session := { registry := d.registry, aliases := d.aliases }, consts := d.consts }
  let origin : Origin :=
    ⟨s!"{unitName}: {(Request.require type texts).describe}", some ⟨1, 1⟩⟩
  obtain ⟨hasked, a, hatable, hasound, hstep⟩ :=
    h.run_step (u := start) rfl htable hsound origin depth
  let judged : Session :=
    { start.session with
      aliases := a, registry := r, verdicts := [⟨origin, .prim name, bs, .error e⟩]
      errors := [⟨origin, .coded e⟩] }
  -- the type is primitive, so that its bounds are checked at once
  have hrequire : Session.require { start.session with aliases := a } depth origin (.prim name) bs =
      some (judged, .error ⟨origin, .coded e⟩) := by
    show (d.registry.checkBounds depth (.prim name) bs).bind _ = _
    rw [hrun]
    rfl
  rw [hrequire] at hstep
  constructor
  · rintro q (hq | ⟨outcome, v, hv, o, ho, -⟩)
    · exact hasked hq
    · -- nothing is put off
      obtain ⟨-, rfl⟩ := Prod.mk.inj (Option.some.inj (hstep.symm.trans hv))
      cases ho
  · refine ⟨a, judged.result, hatable, hasound, ?_, rfl⟩
    show (((UnitM.step depth origin (.require type texts)).run.run start).bind _).bind _ = _
    rw [hstep]
    rfl

end CodeUnit

/-! ## Bounds required in another order -/

/-- Two capabilities that no type has. -/
def Catalog.unimplemented : Catalog where
  capabilities := [⟨"Show", [], [], [], []⟩, ⟨"Read", [], [], [], []⟩]

/-- Declares two capabilities that no type has. -/
def Manifest.unimplemented : Manifest where
  path := ""
  capabilities := [⟨⟨"Show", [], [], [], []⟩, ⟨1, 1⟩⟩, ⟨⟨"Read", [], [], [], []⟩, ⟨2, 1⟩⟩]
  implementations := []
  aliases := []
  consts := []
  units := []

/-- Requires both capabilities of `u8`, `Show` first. -/
def CodeUnit.showRead : CodeUnit := requiring "first" "u8" ["Show", "Read"]

/-- Requires both capabilities of `u8`, `Read` first. -/
def CodeUnit.readShow : CodeUnit := requiring "second" "u8" ["Read", "Show"]

/-- The requirements of the example are read as they stand. -/
theorem UnitM.reads_unimplemented {table : AliasTable} (hempty : table.aliases = [])
    {texts : List String} (htexts : texts ⊆ ["Show", "Read"]) :
    Reads table "u8" texts "u8" (texts.map .simple) := by
  have hbare : ∀ name ∈ ["u8", "Show", "Read"], Token.isIdent name.toList = true ∧ name ≠ "fn" ∧
      trim name = name ∧ Alias.splitApplication name = none := by
    decide +kernel
  have hname (name : String) (hname : name ∈ ["u8", "Show", "Read"]) : IsBareName name := by
    obtain ⟨hident, hfn, htrim, happlied⟩ := hbare name hname
    exact ⟨hident, hfn, htrim, happlied⟩
  have hcapability : ∀ name ∈ ["Show", "Read"], WrittenConstraint.isRegion name.toList = false ∧
      ExpandM.quantifier name = ([], name) ∧ Primitive.isName name = false := by
    decide +kernel
  refine ⟨by decide +kernel, ?_, ExpandM.Settled.mapM fun text htext => ?_⟩
  · have hu8 := hname "u8" (by simp)
    rw [hu8.trimmed, hu8.expand hempty]
    rfl
  · obtain ⟨hregion, hquantifier, hprim⟩ := hcapability text (htexts htext)
    exact (hname text (List.mem_cons_of_mem _ (htexts htext))).settled_bound hempty hregion
      hquantifier hprim

/-- The bound that is blamed is the first of those that are required, and after the first check it is
the one that was blamed then. -/
theorem Registry.checkBounds_unimplemented :
    ∃ r r' r'' : Registry,
      (⟨.unimplemented, []⟩ : Registry).checkBounds 1 (.prim "u8") [.simple "Show", .simple "Read"] =
        some (r, .error (.boundNotSatisfied "u8" "Show" "no implementation matches")) ∧
      r.checkBounds 1 (.prim "u8") [.simple "Read", .simple "Show"] =
        some (r', .error (.boundNotSatisfied "u8" "Show" "no implementation matches")) ∧
      (⟨.unimplemented, []⟩ : Registry).checkBounds 1 (.prim "u8") [.simple "Read", .simple "Show"] =
        some (r'', .error (.boundNotSatisfied "u8" "Read" "no implementation matches")) := by
  have hremembered : ((⟨.unimplemented, []⟩ : Registry).checkBounds 1 (.prim "u8")
      [.simple "Show", .simple "Read"]).bind (fun p =>
        (p.1.checkBounds 1 (.prim "u8") [.simple "Read", .simple "Show"]).map fun p' => (p.2, p'.2)) =
      some (.error (.boundNotSatisfied "u8" "Show" "no implementation matches"),
        .error (.boundNotSatisfied "u8" "Show" "no implementation matches")) := by
    cbv
  have hfresh : ((⟨.unimplemented, []⟩ : Registry).checkBounds 1 (.prim "u8")
      [.simple "Read", .simple "Show"]).map Prod.snd =
      some (.error (.boundNotSatisfied "u8" "Read" "no implementation matches")) := by
    cbv
  obtain ⟨⟨r, outcome⟩, hrun, hsecond⟩ := Option.bind_eq_some_iff.mp hremembered
  obtain ⟨⟨r', outcome'⟩, hrun', houtcomes⟩ := Option.map_eq_some_iff.mp hsecond
  obtain ⟨rfl, rfl⟩ := Prod.mk.inj houtcomes
  obtain ⟨⟨r'', outcome''⟩, hrun'', rfl⟩ := Option.map_eq_some_iff.mp hfresh
  exact ⟨r, r', r'', hrun, hrun', hrun''⟩

/-- What is asked about `u8`. -/
def Question.ofUnimplemented : List Question :=
  [⟨.prim "u8", [.simple "Show", .simple "Read"]⟩, ⟨.prim "u8", [.simple "Read", .simple "Show"]⟩,
    ⟨.prim "u8", [.simple "Show"]⟩, ⟨.prim "u8", [.simple "Read"]⟩]

/-- The questions of the example lead to no others. -/
theorem Catalog.arising_unimplemented {q : Question} (hq : q ∈ Question.ofUnimplemented) :
    Catalog.unimplemented.arising {q} ⊆ {q | q ∈ Question.ofUnimplemented} := by
  have hplain : Catalog.unimplemented.Plain := by simp [Catalog.Plain, Catalog.unimplemented]
  exact hplain.arising_subset hq (by decide +kernel)

/-- The questions of the example are told apart in writing. -/
theorem legible_unimplemented : Legible {q | q ∈ Question.ofUnimplemented} := by
  have hshowRead : Question.key ⟨.prim "u8", [.simple "Show", .simple "Read"]⟩ = "u8: Read + Show" := by
    cbv
  have hreadShow : Question.key ⟨.prim "u8", [.simple "Read", .simple "Show"]⟩ = "u8: Read + Show" := by
    cbv
  have hshow : Question.key ⟨.prim "u8", [.simple "Show"]⟩ = "u8: Show" := by cbv
  have hread : Question.key ⟨.prim "u8", [.simple "Read"]⟩ = "u8: Read" := by cbv
  intro q hq q' hq' hkey
  replace hq : q ∈ Question.ofUnimplemented := hq
  replace hq' : q' ∈ Question.ofUnimplemented := hq'
  simp only [Question.ofUnimplemented, List.mem_cons, List.not_mem_nil, or_false] at hq hq'
  rcases hq with rfl | rfl | rfl | rfl <;> rcases hq' with rfl | rfl | rfl | rfl <;>
    simp [hshowRead, hreadShow, hshow, hread, or_comm] at hkey ⊢

/-- The first unit is told about `Show`, and so is the second one, which requires `Read` first. By
itself the second unit is told about `Read`. -/
theorem Manifest.check_unimplemented :
    ∃ report report' r r',
      Manifest.check 1 { unimplemented with units := [.showRead, .readShow] } = some report ∧
      Manifest.check 1 { unimplemented with units := [.readShow] } = some report' ∧
      Legible (Manifest.asked 1 { unimplemented with units := [.showRead, .readShow] } ∪
        Manifest.asked 1 { unimplemented with units := [.readShow] }) ∧
      report.units[1]? = some ("second", r) ∧ report'.units[0]? = some ("second", r') ∧
      r.errors.map Diagnostic.problem =
        [.coded (.boundNotSatisfied "u8" "Show" "no implementation matches")] ∧
      r'.errors.map Diagnostic.problem =
        [.coded (.boundNotSatisfied "u8" "Read" "no implementation matches")] := by
  let d : Declarations := { registry := ⟨.unimplemented, []⟩ }
  have hsound : d.aliases.Sound := Aliases.sound_of_cache_eq_nil rfl
  have hshowRead : UnitM.Reads d.aliases.table "u8" ["Show", "Read"] "u8" _ :=
    UnitM.reads_unimplemented rfl (by simp)
  have hreadShow : UnitM.Reads d.aliases.table "u8" ["Read", "Show"] "u8" _ :=
    UnitM.reads_unimplemented rfl (by simp)
  obtain ⟨r, r', r'', hrun, hrun', hrun''⟩ := Registry.checkBounds_unimplemented
  have hcatalog : r.catalog = .unimplemented := Registry.catalog_of_run hrun
  -- both units, one after the other
  obtain ⟨hasked, a, result, htable, hsound', hcheck, -⟩ :=
    CodeUnit.check_requiring hshowRead rfl hsound hrun "first"
  obtain ⟨hasked', a', result', -, -, hcheck', herrors'⟩ :=
    CodeUnit.check_requiring (d := { d with registry := r, aliases := a }) hreadShow htable hsound'
      hrun' "second"
  -- the second unit by itself
  obtain ⟨hasked'', a'', result'', -, -, hcheck'', herrors''⟩ :=
    CodeUnit.check_requiring hreadShow rfl hsound hrun'' "second"
  have hboth : CodeUnit.checkAll 1 d [.showRead, .readShow] =
      some [("first", result), ("second", result')] := by
    rw [CodeUnit.showRead, CodeUnit.readShow, CodeUnit.checkAll_cons hcheck,
      CodeUnit.checkAll_cons hcheck']
    rfl
  have halone : CodeUnit.checkAll 1 d [.readShow] = some [("second", result'')] := by
    rw [CodeUnit.readShow, CodeUnit.checkAll_cons hcheck'']
    rfl
  have haskedBoth : CodeUnit.askedAll 1 d [.showRead, .readShow] ⊆
      {q | q ∈ Question.ofUnimplemented} := by
    rw [CodeUnit.showRead, CodeUnit.readShow, CodeUnit.askedAll_cons hcheck,
      CodeUnit.askedAll_cons hcheck']
    refine Set.union_subset (hasked.trans (Catalog.arising_unimplemented (by decide))) ?_
    refine Set.union_subset (hasked'.trans ?_) (Set.empty_subset _)
    show r.catalog.arising _ ⊆ _
    rw [hcatalog]
    exact Catalog.arising_unimplemented (by decide)
  have haskedAlone : CodeUnit.askedAll 1 d [.readShow] ⊆ {q | q ∈ Question.ofUnimplemented} := by
    rw [CodeUnit.readShow, CodeUnit.askedAll_cons hcheck'']
    exact Set.union_subset (hasked''.trans (Catalog.arising_unimplemented (by decide)))
      (Set.empty_subset _)
  refine ⟨⟨"", [], [("first", result), ("second", result')]⟩, ⟨"", [], [("second", result'')]⟩,
    result', result'', ?_, ?_, legible_unimplemented.mono (Set.union_subset haskedBoth haskedAlone),
    rfl, rfl, herrors', herrors''⟩
  · show (CodeUnit.checkAll 1 d [.showRead, .readShow]).bind _ = _
    rw [hboth]
    rfl
  · show (CodeUnit.checkAll 1 d [.readShow]).bind _ = _
    rw [halone]
    rfl

/-! ## Independence -/

/-- Units do not influence each other, up to the wording of bounds that do not hold: whichever units
stand before a unit and after it, the two reports of the unit agree, and they are the same if its
bounds hold. The questions about bounds that come up have to be told apart by what is remembered of
them. -/
theorem Manifest.unit_reports_alike {m : Manifest} {u : CodeUnit}
    {before after before' after' : List CodeUnit} {depth depth' : Nat} {report report' : Report}
    (hrun : Manifest.check depth { m with units := before ++ u :: after } = some report)
    (hrun' : Manifest.check depth' { m with units := before' ++ u :: after' } = some report')
    (hlegible : Legible (Manifest.asked depth { m with units := before ++ u :: after } ∪
      Manifest.asked depth' { m with units := before' ++ u :: after' })) :
    report.declarations = report'.declarations ∧
      ∃ r r', report.units[before.length]? = some (u.name, r) ∧
        report'.units[before'.length]? = some (u.name, r') ∧ r.Alike r' ∧ (r.BoundsHold → r = r') := by
  obtain ⟨results, hresults, hreturn⟩ := Option.bind_eq_some_iff.mp hrun
  obtain ⟨results', hresults', hreturn'⟩ := Option.bind_eq_some_iff.mp hrun'
  obtain rfl := Option.some.inj hreturn
  obtain rfl := Option.some.inj hreturn'
  have hstart := Declarations.remembers_ofManifest m
    (Manifest.asked depth { m with units := before ++ u :: after } ∪
      Manifest.asked depth' { m with units := before' ++ u :: after' })
  -- the units before the one in question leave the same declarations behind
  obtain ⟨d, e, r, hd, hconsts, hasked, hcheck, hget⟩ :=
    CodeUnit.checkAll_append hlegible hstart Set.subset_union_left hresults
  obtain ⟨d', e', r', hd', hconsts', -, hcheck', hget'⟩ :=
    CodeUnit.checkAll_append hlegible hstart Set.subset_union_right hresults'
  have halike := (CodeUnit.check_alike hlegible hd hd' (hconsts'.trans hconsts.symm) hasked hcheck
    hcheck').1
  exact ⟨rfl, r, r', hget, hget', halike, halike.eq_of_boundsHold⟩

/-- The unit before requires the same bounds in another order, so that another one is blamed. The two
reports are still alike. -/
theorem Manifest.unit_reports_alike_of_reordered :
    ∃ report report' r r',
      Manifest.check 1 { unimplemented with units := [.showRead] ++ .readShow :: [] } = some report ∧
      Manifest.check 1 { unimplemented with units := [] ++ .readShow :: [] } = some report' ∧
      Legible (Manifest.asked 1 { unimplemented with units := [.showRead] ++ .readShow :: [] } ∪
        Manifest.asked 1 { unimplemented with units := [] ++ .readShow :: [] }) ∧
      report.units[1]? = some ("second", r) ∧ report'.units[0]? = some ("second", r') ∧
      r.Alike r' := by
  obtain ⟨report, report', -, -, hrun, hrun', hlegible, -⟩ := check_unimplemented
  obtain ⟨-, r, r', hget, hget', halike, -⟩ :=
    unit_reports_alike (m := unimplemented) (u := .readShow)
      (show Manifest.check 1 { unimplemented with units := [.showRead] ++ .readShow :: [] } = _ from
        hrun)
      (show Manifest.check 1 { unimplemented with units := [] ++ .readShow :: [] } = _ from hrun')
      hlegible
  exact ⟨report, report', r, r', hrun, hrun', hlegible, hget, hget', halike⟩

/-- Units can influence each other: the unit that stands before changes which bound is blamed, although
nothing that is remembered is mistaken for something else. -/
theorem Manifest.exists_unit_errors_ne :
    ∃ (m : Manifest) (u : CodeUnit) (before : List CodeUnit) (depth : Nat) (report report' : Report)
      (r r' : SessionResult),
      Manifest.check depth { m with units := before ++ [u] } = some report ∧
      Manifest.check depth { m with units := [u] } = some report' ∧
      Legible (Manifest.asked depth { m with units := before ++ [u] } ∪
        Manifest.asked depth { m with units := [u] }) ∧
      report.units[before.length]? = some (u.name, r) ∧ report'.units[0]? = some (u.name, r') ∧
      r.errors ≠ r'.errors := by
  obtain ⟨report, report', r, r', hrun, hrun', hlegible, hget, hget', herrors, herrors'⟩ :=
    check_unimplemented
  refine ⟨unimplemented, .readShow, [.showRead], 1, report, report', r, r', hrun, hrun', hlegible,
    hget, hget', fun hsame => ?_⟩
  rw [hsame, herrors'] at herrors
  simp at herrors

end Generics
