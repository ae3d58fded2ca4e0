import Generics.Proofs.Alias.Remembered
import Generics.Proofs.Session.HoleReading
import Generics.Proofs.Session.Issued
import Generics.Proofs.Ty.Canonical

/-!
# What an annotation stands for

An annotation leaves types open by its holes and by the variables that are written in it. Each hole, and
each written variable in all its places, is to get a variable of its own that the session has not issued
before.

The holes get names in the text and are found again by these names in the type. This goes wrong in two
ways. A name of the type can be the same as that of a hole, and is then taken for it. And an underscore
that is a segment of a longer name, or a name with arguments, gets a number although it is no hole.
`Ty.Unambiguous` excludes both, and then all goes well as long as there are enough variables left.

## Main results

* `Aliases.Sound.expand_of_nil`: without aliases a text stands for the type that is read from it;
* `Hole.exists_fill`: what becomes of the variables and names of an annotation;
* `Hole.filledFresh_iff`: when what is left open gets fresh variables and the rest is kept;
* `Session.annotate_fresh_iff`: the same for the annotations of a session.
-/

namespace Generics

/-! ## Texts without aliases -/

/-- Where no name is replaced, a type that was read stays as it is. -/
theorem Ty.expandNames_eq_self {ε : Type} {f : String → List Region → List Ty → Except ε (Option Ty)}
    (hf : ∀ name regions args, f name regions args = .ok none) {t : Ty} (ht : t.Spellable) :
    t.expandNames f = .ok t := by
  have hlist {ts : List Ty} (hts : ∀ t ∈ ts, t.expandNames f = .ok t) :
      expandNamesList f ts = .ok ts := by
    induction ts with
    | nil => rfl
    | cons t ts ih =>
      obtain ⟨ht, hts⟩ := List.forall_mem_cons.mp hts
      rw [expandNamesList, ht, ih hts]
      rfl
  induction t with
  | prim name => rfl
  | var id => rfl
  | tuple elems ih =>
    obtain ⟨-, hchildren⟩ := spellable_iff.mp ht
    rw [expandNames, hlist fun t ht => ih t ht (hchildren t ht)]
    rfl
  | array elem size ih =>
    rw [expandNames, ih ((spellable_iff.mp ht).2 elem List.mem_cons_self)]
    rfl
  | ref region isMut inner ih =>
    rw [expandNames, ih ((spellable_iff.mp ht).2 inner List.mem_cons_self)]
    rfl
  | ptr isMut inner ih =>
    rw [expandNames, ih ((spellable_iff.mp ht).2 inner List.mem_cons_self)]
    rfl
  | fn params ret ih ihret =>
    obtain ⟨hroot, hchildren⟩ := spellable_iff.mp ht
    have hparams := hlist fun t ht => ih t ht (hchildren t (List.mem_append_left _ ht))
    cases ret with
    -- the parser always gives a function a return type
    | none => cases hroot
    | some ret =>
      rw [expandNames, hparams, ihret ret rfl (hchildren ret (by simp [children]))]
      rfl
  | named name regions args ih =>
    obtain ⟨-, hchildren⟩ := spellable_iff.mp ht
    rw [expandNames, hf, hlist fun t ht => ih t ht (hchildren t ht)]
    rfl

/-- Without aliases a text stands for the type that is read from it. -/
theorem AliasTable.expand_of_nil {table : AliasTable} (hnone : table.aliases = []) {text : String}
    {t : Ty} (h : Ty.parse text = .ok t) : table.expand text = .ok t := by
  have hfind (name : String) : table.find? name = none := by rw [find?, hnone, List.find?_nil]
  have hunapplied (enter : (name target : String) → Except Error Ty) :
      table.expandUnapplied enter text = .ok t := by
    rw [expandUnapplied, hfind, h]
    refine Ty.expandNames_eq_self (fun name regions args => ?_) (Ty.spellable_of_parse h)
    rw [nested, hfind]
    rfl
  rw [expand, expandWith]
  split
  · rw [hfind]
    exact hunapplied _
  · exact hunapplied _

/-- Without aliases a type is expanded to itself. -/
theorem Aliases.Sound.expand_of_nil {n : Aliases} (hn : n.Sound) (hnone : n.table.aliases = [])
    {text : String} {t : Ty} (h : Ty.parse text = .ok t) : (n.expand text).2 = .ok t := by
  rw [(hn.expand text).1]
  refine AliasTable.expand_of_nil hnone (Ty.parse_ofList_eq_ok_iff.mpr ?_)
  rw [Ty.denotes_trimChars]
  exact Ty.parse_eq_ok_iff.mp h

/-- A session declares no aliases, and what it remembers of them stays right. -/
theorem Session.aliases_serve {s s' : Session} {r : Request} (h : s.serve r = some s')
    (hs : s.aliases.Sound) : s'.aliases.table = s.aliases.table ∧ s'.aliases.Sound := by
  cases r with
  | annotate origin text =>
    obtain rfl := Option.some.inj h
    obtain ⟨-, htable, hsound⟩ := hs.expand (Hole.nameAll text).1
    cases hexpand : (s.aliases.expand (Hole.nameAll text).1).2 with
    | error e =>
      rw [annotate_of_error hexpand, (keeps_conclude _ origin _).aliases]
      exact ⟨htable, hsound⟩
    | ok t =>
      rw [annotate_of_ok hexpand]
      exact ⟨htable, hsound⟩
  | fresh =>
    obtain rfl := Option.some.inj h
    exact ⟨rfl, hs⟩
  | unify origin a b =>
    obtain rfl := Option.some.inj h
    rw [(keeps_unify s origin a b).aliases]
    exact ⟨rfl, hs⟩
  | _ =>
    rw [(keeps_serve rfl h).aliases]
    exact ⟨rfl, hs⟩

/-- Requests change neither the aliases nor that what is remembered of them is right. -/
theorem Session.aliases_serveAll {s s' : Session} {requests : List Request}
    (h : s.serveAll requests = some s') (hs : s.aliases.Sound) :
    s'.aliases.table = s.aliases.table ∧ s'.aliases.Sound := by
  induction requests generalizing s with
  | nil =>
    obtain rfl := Option.some.inj h
    exact ⟨rfl, hs⟩
  | cons r rs ih =>
    obtain ⟨served, hserve, hrest⟩ := Option.bind_eq_some_iff.mp h
    obtain ⟨htable, hsound⟩ := aliases_serve hserve hs
    obtain ⟨htable', hsound'⟩ := ih hrest hsound
    exact ⟨htable'.trans htable, hsound'⟩

/-! ## Variables that are left -/

/-- The numbers after those issued, as long as there are variables left. -/
theorem Fresher.add_lt_size {n : Nat} {issued : List VarId} (h : ∀ w, w ∈ issued ↔ w.toNat < n)
    {k i : Nat} (hroom : issued.eraseDups.length + k ≤ UInt64.size) (hi : i < k) :
    n + i < UInt64.size := by
  have hnodup : ((List.range (min n UInt64.size)).map UInt64.ofNat).Nodup := by
    refine List.Nodup.map_on (fun a ha b hb heq => ?_) List.nodup_range
    rw [List.mem_range] at ha hb
    have htoNat := congrArg UInt64.toNat heq
    rwa [UInt64.toNat_ofNat_of_lt' (by omega), UInt64.toNat_ofNat_of_lt' (by omega)] at htoNat
  have hsubset : (List.range (min n UInt64.size)).map UInt64.ofNat ⊆ issued.eraseDups := by
    intro w hw
    obtain ⟨a, ha, rfl⟩ := List.mem_map.mp hw
    rw [List.mem_range] at ha
    rw [List.mem_eraseDups, h, UInt64.toNat_ofNat_of_lt' (by omega)]
    omega
  have hle := hnodup.length_le_of_subset hsubset
  rw [List.length_map, List.length_range] at hle
  omega

/-! ## What becomes of an annotation -/

namespace Ty

/-- A name that stands for a type to be inferred. -/
def Atom.hole : Atom := .name "_" false

/-- What an annotation leaves open: a variable that is written, in all places where it stands, or the hole
in one place. -/
inductive Slot where
  | written (id : VarId)
  | hole (position : Nat)
deriving DecidableEq, Repr

/-- What the type leaves open. -/
def slots (t : Ty) : List Slot := t.freeVars.map .written ++ (t.atoms.idxsOf .hole).map .hole

/-- The atom in the given place, with a variable if it is left open. -/
def Atom.filled (w : Slot → VarId) (position : Nat) : Atom → Atom
  | .var id => .var (w (.written id))
  | .name word applied =>
    if .name word applied = Atom.hole then .var (w (.hole position)) else .name word applied

/-- The second type is the first one with a variable of its own for everything that is left open. None
of these variables is among those issued, and nothing else is changed. -/
def FilledFresh (issued : List VarId) (t u : Ty) : Prop :=
  ∃ w : Slot → VarId, u.frame = t.frame ∧ u.atoms = t.atoms.mapIdx (Atom.filled w) ∧
    (t.slots.map w).Nodup ∧ ∀ v ∈ t.slots.map w, v ∉ issued

/-- The atom is a hole, or it is kept when holes are named and is not the name of one of `count`
holes. -/
def Atom.Distinct (count : Nat) : Atom → Prop
  | .var _ => True
  | .name word applied => .name word applied = Atom.hole ∨
      ¬ Hole.IsLone word ∧ (applied = false → ∀ k < count, word ≠ Hole.name k)

instance (count : Nat) : DecidablePred (Atom.Distinct count)
  | .var _ => .isTrue trivial
  | .name _ applied => inferInstanceAs (Decidable (_ ∨ ¬ _ ∧ (applied = false → ∀ k < count, _)))

/-- Every name of the type can be told from the names that its holes get. -/
def Unambiguous (t : Ty) : Prop := ∀ a ∈ t.atoms, a.Distinct (t.atoms.count .hole)

instance (t : Ty) : Decidable t.Unambiguous := List.decidableBAll _ t.atoms

end Ty

namespace Hole

open Text
open Ty (Atom)

/-- The atom with the holes in its name named from the number `n` on. -/
def numbered (n : Nat) : Atom → Atom
  | .var id => .var id
  | .name word applied => .name (nameFrom n word).1 applied

/-- The number that the first hole after a place of the type would get. -/
def numberAt (as : List Atom) (position : Nat) : Nat := (numberAtoms 0 (as.take position)).2

/-- Each atom is numbered by itself, from the number that its place gives. -/
theorem numberAtoms_eq_mapIdx (n : Nat) (as : List Atom) :
    (numberAtoms n as).1 = as.mapIdx fun i a => numbered (numberAtoms n (as.take i)).2 a := by
  induction as generalizing n with
  | nil => rfl
  | cons a as ih =>
    cases a with
    | var id => rw [List.mapIdx_cons, numberAtoms, ih]; rfl
    | name word applied => rw [List.mapIdx_cons, numberAtoms, ih]; rfl

/-- Numbering holes keeps the variables. -/
theorem var_mem_numberAtoms {n : Nat} {as : List Atom} {v : VarId} :
    .var v ∈ (numberAtoms n as).1 ↔ .var v ∈ as := by
  induction as generalizing n with
  | nil => rfl
  | cons a as ih => cases a <;> simp [numberAtoms, ih]

/-- If no other name has a hole in it, the holes are counted. -/
theorem numberAtoms_snd {as : List Atom}
    (h : ∀ word applied, .name word applied ∈ as → .name word applied = Atom.hole ∨ ¬ IsLone word)
    (n : Nat) : (numberAtoms n as).2 = n + as.count Atom.hole := by
  induction as generalizing n with
  | nil => rfl
  | cons a as ih =>
    have ih := ih fun word applied hmem => h word applied (List.mem_cons_of_mem a hmem)
    cases a with
    | var id =>
      rw [numberAtoms, ih, List.count_cons_of_ne (by simp [Atom.hole])]
    | name word applied =>
      rw [numberAtoms, ih]
      rcases h word applied List.mem_cons_self with hhole | hkept
      · obtain ⟨rfl, rfl⟩ := Atom.name.inj hhole
        rw [nameFrom_underscore, ← Atom.hole, List.count_cons_self]
        omega
      · -- a name that is kept is no hole, and takes no number
        have hne : .name word applied ≠ Atom.hole := by
          rintro hhole
          obtain ⟨rfl, rfl⟩ := Atom.name.inj hhole
          exact hkept ⟨[], [], rfl, rfl⟩
        rw [nameFrom_of_not_isLone hkept, List.count_cons_of_ne hne]

/-- What an atom becomes, when the variables of an annotation are numbered from `n` on: first those
that are written, then the names of holes. -/
def resolved (n : Nat) (vars : List VarId) (holes : List String) : Atom → Atom
  | .var id => .var (.ofNat (n + vars.idxOf id))
  | .name word false =>
    if word ∈ holes then .var (.ofNat (n + (vars.length + holes.idxOf word))) else .name word false
  | .name word true => .name word true

/-- The variables of an annotation that were written are numbered in the order in which they come. -/
theorem image_cover {f : Fresher} {n : Nat} (hf : f.next = .ofNat n) (t : Ty) :
    (f.cover [] t.vars).1.length = t.vars.eraseDups.length ∧
      ∀ v ∈ t.vars, (f.cover [] t.vars).1.image v = .ofNat (n + t.vars.eraseDups.idxOf v) := by
  have hkeys : ((f.cover [] t.vars).1.map Prod.fst).reverse = ([] ++ t.vars).eraseDups :=
    Fresher.map_fst_cover rfl t.vars
  rw [List.nil_append] at hkeys
  refine ⟨by simpa using congrArg List.length hkeys, fun v hv => ?_⟩
  have hmem : v ∈ (f.cover [] t.vars).1.map Prod.fst := by
    rw [← List.mem_reverse, hkeys, List.mem_eraseDups]
    exact hv
  rw [Renaming.image, ((Fresher.Issued.nil hf).cover t.vars).lookup_eq hmem, hkeys, Option.getD_some]

/-- What becomes of an annotation with named holes. -/
theorem exists_fill {f : Fresher} {n : Nat} (hf : f.next = .ofNat n) (count : Nat) (t : Ty) :
    ∃ holes : List String, holes.Nodup ∧
      (∀ word, word ∈ holes ↔ .name word false ∈ t.atoms ∧ ∃ k < count, word = name k) ∧
      (fill (f.renameAlone t).2 count (f.renameAlone t).1).1.frame = t.frame ∧
      (fill (f.renameAlone t).2 count (f.renameAlone t).1).1.atoms =
        t.atoms.map (resolved n t.vars.eraseDups holes) := by
  -- the written variables are renamed first, and the holes get the numbers that follow
  obtain ⟨hlength, himage⟩ := image_cover hf t
  have hnext : (f.renameAlone t).2.next = .ofNat (n + t.vars.eraseDups.length) := by
    rw [← hlength, Fresher.renameAlone_eq]
    exact ((Fresher.Issued.nil hf).cover t.vars).next
  have hrenamed : Ty.Recast (Atom.rename (f.cover [] t.vars).1.image) t (f.renameAlone t).1 := by
    rw [Fresher.renameAlone_eq]
    exact Ty.recast_rename _ t
  have hfilled := Ty.recast_refer
    ((issueVars (f.renameAlone t).2 (present count (f.renameAlone t).1)).1.lookup ·)
    (f.renameAlone t).1
  refine ⟨present count (f.renameAlone t).1, nodup_eraseDups _, fun word => ?_,
    hfilled.frame.trans hrenamed.frame, hfilled.atoms.trans ?_⟩
  · -- renaming touches variables only, so that the bare names are those of the annotation
    have hsame : .name word false ∈ t.atoms.map (Atom.rename (f.cover [] t.vars).1.image) ↔
        .name word false ∈ t.atoms := by
      rw [List.mem_map]
      constructor
      · rintro ⟨a, ha, heq⟩
        cases a with
        | var id => cases heq
        | name => exact heq ▸ ha
      · exact fun ha => ⟨_, ha, rfl⟩
    rw [present, List.mem_eraseDups, List.mem_filter, Ty.mem_bareNames_iff, hrenamed.atoms, hsame]
    simp [eq_comm]
  · rw [hrenamed.atoms, List.map_map]
    refine List.map_congr_left fun a ha => ?_
    cases a with
    | var id => exact congrArg Atom.var (himage id (Ty.mem_vars_iff.mpr ha))
    | name word applied =>
      cases applied with
      | true => rfl
      | false =>
        simp only [Function.comp_apply, Atom.rename, Atom.refer, resolved, lookup_issueVars hnext,
          Nat.add_assoc]
        split <;> rfl

/-! ## Names that can be told apart -/

/-- Holes of different numbers have different names. -/
theorem name_injective : Function.Injective name := by
  intro m n h
  have hchars := congrArg String.toList h
  rw [name, name, String.toList_ofList, String.toList_ofList] at hchars
  exact decimal_injective (List.cons.inj hchars).2

/-- There is one more hole before every place behind a hole. -/
theorem count_take_lt {as : List Atom} {i j : Nat} (hij : i < j) (hi : as[i]? = some Atom.hole) :
    (as.take i).count Atom.hole < (as.take j).count Atom.hole := by
  have hsucc : (as.take (i + 1)).count Atom.hole = (as.take i).count Atom.hole + 1 := by
    rw [List.take_add_one, hi, List.count_append]
    simp
  have hprefix : as.take (i + 1) <+: as.take j := List.take_prefix_take_left hij
  have hle := hprefix.sublist.count_le Atom.hole
  omega

section

variable {as : List Atom} {n : Nat} {vars : List VarId} {holes : List String}
  (hholes : ∀ word, word ∈ holes ↔
    .name word false ∈ (numberAtoms 0 as).1 ∧ ∃ k < (numberAtoms 0 as).2, word = name k)

/-- Each atom occurs with its holes numbered. -/
theorem numbered_mem {i : Nat} {a : Atom} (h : as[i]? = some a) :
    numbered (numberAt as i) a ∈ (numberAtoms 0 as).1 := by
  refine List.mem_of_getElem? (i := i) ?_
  rw [numberAtoms_eq_mapIdx, List.getElem?_mapIdx, h]
  rfl

/-- An atom that stays a name was this name, and not that of a hole. -/
theorem resolved_eq_name {a : Atom} {word : String} {applied : Bool}
    (h : resolved n vars holes a = .name word applied) :
    a = .name word applied ∧ (applied = false → word ∉ holes) := by
  unfold resolved at h
  split at h
  · cases h
  · split at h
    · cases h
    · obtain ⟨rfl, rfl⟩ := Atom.name.inj h
      exact ⟨rfl, fun _ => ‹_›⟩
  · obtain ⟨rfl, rfl⟩ := Atom.name.inj h
    exact ⟨rfl, by rintro ⟨⟩⟩

include hholes

/-- If each atom is filled as it should be, every name can be told from the names of holes. -/
theorem distinct_of_resolved {w : Ty.Slot → VarId}
    (h : ∀ i a, as[i]? = some a → resolved n vars holes (numbered (numberAt as i) a) = a.filled w i) :
    ∀ a ∈ as, a.Distinct (as.count .hole) := by
  -- a name other than a hole is kept only if neither the naming nor the filling changes it
  have hother {i : Nat} {word : String} {applied : Bool} (hi : as[i]? = some (.name word applied))
      (hne : .name word applied ≠ Atom.hole) :
      ¬ IsLone word ∧ (applied = false → word ∉ holes) := by
    have heq := h i _ hi
    rw [Atom.filled, if_neg hne] at heq
    obtain ⟨hname, hfree⟩ := resolved_eq_name heq
    exact ⟨nameFrom_eq_self_iff.mp (Atom.name.inj hname).1, hfree⟩
  have hcount : (numberAtoms 0 as).2 = as.count Atom.hole := by
    rw [numberAtoms_snd, Nat.zero_add]
    intro word applied hmem
    obtain ⟨i, hi⟩ := List.mem_iff_getElem?.mp hmem
    exact or_iff_not_imp_left.mpr fun hne => (hother hi hne).1
  intro a ha
  obtain ⟨i, hi⟩ := List.mem_iff_getElem?.mp ha
  cases a with
  | var id => trivial
  | name word applied =>
    refine or_iff_not_imp_left.mpr fun hne => ?_
    obtain ⟨hkept, hfree⟩ := hother hi hne
    refine ⟨hkept, ?_⟩
    rintro rfl k hk rfl
    refine hfree rfl ((hholes _).mpr ⟨?_, k, hcount ▸ hk, rfl⟩)
    have hmem := numbered_mem hi
    rwa [numbered, nameFrom_of_not_isLone hkept] at hmem

/-- The place of a slot in the order in which the slots get their variables. -/
def rank (as : List Atom) (vars : List VarId) (holes : List String) : Ty.Slot → Nat
  | .written id => vars.idxOf id
  | .hole position => vars.length + holes.idxOf (name (numberAt as position))

variable (hdistinct : ∀ a ∈ as, a.Distinct (as.count .hole))
include hdistinct

omit hholes in
/-- A hole is numbered by the holes before it. -/
theorem numberAt_eq (i : Nat) : numberAt as i = (as.take i).count Atom.hole := by
  rw [numberAt, numberAtoms_snd, Nat.zero_add]
  intro word applied hmem
  exact (hdistinct _ (List.mem_of_mem_take hmem)).imp_right And.left

omit hholes in
theorem numberAtoms_snd_eq : (numberAtoms 0 as).2 = as.count Atom.hole := by
  have hall := numberAt_eq hdistinct as.length
  rwa [numberAt, List.take_length] at hall

/-- The name that a hole gets is found among the holes. -/
theorem name_numberAt_mem {i : Nat} (hi : as[i]? = some .hole) : name (numberAt as i) ∈ holes := by
  refine (hholes _).mpr ⟨?_, numberAt as i, ?_, rfl⟩
  · have hmem := numbered_mem hi
    rwa [Atom.hole, numbered, nameFrom_underscore] at hmem
  · have hlt := count_take_lt (List.getElem?_eq_some_iff.mp hi).1 hi
    rwa [List.take_length, ← numberAt_eq hdistinct, ← numberAtoms_snd_eq hdistinct] at hlt

/-- If names can be told from those of holes, each atom is filled as it should be. -/
theorem resolved_eq_filled {i : Nat} {a : Atom} (hi : as[i]? = some a) :
    resolved n vars holes (numbered (numberAt as i) a) =
      a.filled (fun slot => .ofNat (n + rank as vars holes slot)) i := by
  cases a with
  | var id => rfl
  | name word applied =>
    by_cases hhole : .name word applied = Atom.hole
    · have hmem := name_numberAt_mem hholes hdistinct (hhole ▸ hi)
      obtain ⟨rfl, rfl⟩ := Atom.name.inj hhole
      rw [Atom.filled, if_pos hhole, numbered, nameFrom_underscore, resolved, if_pos hmem]
      rfl
    · obtain ⟨hkept, hfree⟩ := (hdistinct _ (List.mem_of_getElem? hi)).resolve_left hhole
      rw [Atom.filled, if_neg hhole, numbered, nameFrom_of_not_isLone hkept]
      cases applied with
      | true => rfl
      | false =>
        -- a name that is kept is not that of a hole either
        rw [resolved, if_neg]
        rintro hmem
        obtain ⟨-, k, hk, rfl⟩ := (hholes word).mp hmem
        exact hfree rfl k (numberAtoms_snd_eq hdistinct ▸ hk) rfl

/-- No more names are found than there are holes. -/
theorem length_holes_le (hnodup : holes.Nodup) : holes.length ≤ as.count Atom.hole := by
  have hsubset : holes ⊆ (List.range (as.count Atom.hole)).map name := by
    intro word hword
    obtain ⟨-, k, hk, rfl⟩ := (hholes word).mp hword
    rw [numberAtoms_snd_eq hdistinct] at hk
    exact List.mem_map_of_mem (List.mem_range.mpr hk)
  simpa using hnodup.length_le_of_subset hsubset

end

end Hole

namespace Ty

/-- Each variable that is written has a slot. -/
theorem written_mem_slots {t : Ty} {v : VarId} : .written v ∈ t.slots ↔ v ∈ t.vars := by
  simp [slots, mem_freeVars]

/-- Each hole has a slot. -/
theorem hole_mem_slots {t : Ty} {i : Nat} : .hole i ∈ t.slots ↔ t.atoms[i]? = some .hole := by
  simp [slots, List.getElem?_eq_some_iff]

/-- No slot is listed twice. -/
theorem nodup_slots (t : Ty) : t.slots.Nodup := by
  rw [slots, List.nodup_append]
  refine ⟨t.nodup_freeVars.map fun _ _ => Slot.written.inj,
    List.nodup_idxsOf.map fun _ _ => Slot.hole.inj, ?_⟩
  rintro _ hwritten _ hhole rfl
  obtain ⟨v, -, rfl⟩ := List.mem_map.mp hwritten
  obtain ⟨i, -, heq⟩ := List.mem_map.mp hhole
  cases heq

/-- There are as many slots as different variables and holes. -/
theorem length_slots (t : Ty) : t.slots.length = t.freeVars.length + t.atoms.count .hole := by
  rw [slots, List.length_append, List.length_map, List.length_map, List.length_idxsOf]

end Ty

namespace Hole

section

variable {t : Ty} {vars : List VarId} {holes : List String} (hvars : vars.Nodup)
  (hmem : ∀ v, v ∈ vars ↔ v ∈ t.vars) (hnodup : holes.Nodup)
  (hholes : ∀ word, word ∈ holes ↔
    .name word false ∈ (numberAtoms 0 t.atoms).1 ∧ ∃ k < (numberAtoms 0 t.atoms).2, word = name k)
  (hdistinct : t.Unambiguous)
include hvars hmem hnodup hholes hdistinct

/-- The slots get as many variables as there are slots. -/
theorem rank_lt {slot : Ty.Slot} (h : slot ∈ t.slots) :
    rank t.atoms vars holes slot < t.slots.length := by
  have hlength : vars.length = t.freeVars.length := by
    refine List.Perm.length_eq ((List.perm_ext_iff_of_nodup hvars t.nodup_freeVars).mpr fun v => ?_)
    rw [hmem, Ty.mem_freeVars]
  have hle := length_holes_le hholes hdistinct hnodup
  rw [t.length_slots, ← hlength]
  cases slot with
  | written v =>
    have hlt := List.idxOf_lt_length_of_mem ((hmem v).mpr (Ty.written_mem_slots.mp h))
    exact Nat.lt_add_right _ hlt
  | hole i =>
    have hlt := List.idxOf_lt_length_of_mem
      (name_numberAt_mem hholes hdistinct (Ty.hole_mem_slots.mp h))
    exact Nat.add_lt_add_left (Nat.lt_of_lt_of_le hlt hle) _

omit hvars hnodup in
/-- Different slots get different variables. -/
theorem rank_injOn : Set.InjOn (rank t.atoms vars holes) {slot | slot ∈ t.slots} := by
  have hlt {v : VarId} (hv : .written v ∈ t.slots) :
      rank t.atoms vars holes (.written v) < vars.length :=
    List.idxOf_lt_length_of_mem ((hmem v).mpr (Ty.written_mem_slots.mp hv))
  have hle (i : Nat) : vars.length ≤ rank t.atoms vars holes (.hole i) := Nat.le_add_right _ _
  intro a ha b hb heq
  cases a with
  | written v =>
    cases b with
    | written v' =>
      rw [(List.idxOf_inj ((hmem v).mpr (Ty.written_mem_slots.mp ha))).mp heq]
    | hole j => exact absurd (hlt ha) (heq ▸ Nat.not_lt.mpr (hle j))
  | hole i =>
    cases b with
    | written v => exact absurd (hlt hb) (heq ▸ Nat.not_lt.mpr (hle i))
    | hole j =>
      have hi := Ty.hole_mem_slots.mp ha
      have hj := Ty.hole_mem_slots.mp hb
      -- different holes come after different numbers of holes
      have hname := (List.idxOf_inj (name_numberAt_mem hholes hdistinct hi)).mp
        (Nat.add_left_cancel heq)
      have hnumber := name_injective hname
      rw [numberAt_eq hdistinct, numberAt_eq hdistinct] at hnumber
      rcases Nat.lt_trichotomy i j with hij | rfl | hij
      · exact absurd hnumber (Nat.ne_of_lt (count_take_lt hij hi))
      · rfl
      · exact absurd hnumber (Nat.ne_of_gt (count_take_lt hij hj))

omit hdistinct in
/-- When what is left open in a type gets fresh variables and the rest is kept. -/
theorem filledFresh_iff {n : Nat} {issued : List VarId} (hissued : ∀ w, w ∈ issued ↔ w.toNat < n)
    {u : Ty} (hframe : u.frame = t.frame)
    (hatoms : u.atoms =
      t.atoms.mapIdx fun i a => resolved n vars holes (numbered (numberAt t.atoms i) a)) :
    t.FilledFresh issued u ↔
      t.Unambiguous ∧ issued.eraseDups.length + t.slots.length ≤ UInt64.size := by
  constructor
  · rintro ⟨w, -, hfilled, hdifferent, hnew⟩
    rw [hatoms, List.mapIdx_eq_mapIdx_iff] at hfilled
    have hplaces : ∀ i a, t.atoms[i]? = some a →
        resolved n vars holes (numbered (numberAt t.atoms i) a) = a.filled w i := by
      intro i a hi
      obtain ⟨hlt, rfl⟩ := List.getElem?_eq_some_iff.mp hi
      exact hfilled i hlt
    -- the variables issued and the new ones are all different
    have hall : (issued.eraseDups ++ t.slots.map w).Nodup := by
      refine List.nodup_append.mpr ⟨nodup_eraseDups issued, hdifferent, ?_⟩
      rintro v hv _ hw rfl
      exact hnew v hw (List.mem_eraseDups.mp hv)
    exact ⟨distinct_of_resolved hholes hplaces, by simpa using Ty.length_le_of_nodup hall⟩
  · rintro ⟨hdistinct, hroom⟩
    have htoNat {slot : Ty.Slot} (hslot : slot ∈ t.slots) :
        (UInt64.ofNat (n + rank t.atoms vars holes slot)).toNat =
          n + rank t.atoms vars holes slot :=
      UInt64.toNat_ofNat_of_lt' (Fresher.add_lt_size hissued hroom
        (rank_lt hvars hmem hnodup hholes hdistinct hslot))
    refine ⟨fun slot => .ofNat (n + rank t.atoms vars holes slot), hframe, ?_, ?_, ?_⟩
    · rw [hatoms, List.mapIdx_eq_mapIdx_iff]
      exact fun i hlt => resolved_eq_filled hholes hdistinct (List.getElem?_eq_getElem hlt)
    · refine List.Nodup.map_on (fun a ha b hb heq => ?_) t.nodup_slots
      have hrank := congrArg UInt64.toNat heq
      rw [htoNat ha, htoNat hb] at hrank
      exact rank_injOn hmem hholes hdistinct ha hb (Nat.add_left_cancel hrank)
    · intro v hv
      obtain ⟨slot, hslot, rfl⟩ := List.mem_map.mp hv
      rw [hissued, htoNat hslot]
      exact Nat.not_lt.mpr (Nat.le_add_right n _)

end

end Hole

namespace Session

/-- At every point of a run without aliases, a text that can be read as a type can be annotated. What is
left open in it gets variables of its own, none of which was issued before, and the rest is kept, if and
only if the names in it can be told from those that its holes get and there are enough variables left. -/
theorem annotate_fresh_iff {registry : Registry} {aliases : Aliases} {before : List Request}
    {s : Session} (hrun : serveAll { registry, aliases } before = some s)
    (hnone : aliases.table.aliases = []) (hsound : aliases.Sound) (origin : Origin) {text : String}
    {t : Ty} (hparse : Ty.parse text = .ok t) :
    ∃ u, (s.annotate origin text).2 = .ok u ∧
      (t.FilledFresh (issuedAlong { registry, aliases } before) u ↔
        t.Unambiguous ∧
          (issuedAlong { registry, aliases } before).eraseDups.length + t.slots.length ≤
            UInt64.size) := by
  obtain ⟨htable, hsound'⟩ := aliases_serveAll hrun hsound
  obtain ⟨n, hn, hissued⟩ := exists_issued hrun
  generalize issuedAlong { registry, aliases } before = issued at hissued ⊢
  obtain ⟨named, hnamed, hnumbered⟩ := Hole.parse_nameAll hparse
  have hexpand := hsound'.expand_of_nil (htable ▸ hnone) hnamed
  obtain ⟨holes, hnodup, hholes, hframe, hatoms⟩ := Hole.exists_fill hn (Hole.nameAll text).2 named
  rw [annotate_of_ok hexpand]
  refine ⟨_, rfl, ?_⟩
  -- the text with named holes is read as the type with its holes named in the order of its atoms
  have hnames : (Hole.numberAtoms 0 t.atoms).1 = named.atoms := congrArg Prod.fst hnumbered.atoms
  have hcount : (Hole.numberAtoms 0 t.atoms).2 = (Hole.nameAll text).2 :=
    congrArg Prod.snd hnumbered.atoms
  refine Hole.filledFresh_iff (nodup_eraseDups named.vars) (fun v => ?_) hnodup ?_ hissued
    (hframe.trans hnumbered.frame) ?_
  · rw [List.mem_eraseDups, Ty.mem_vars_iff, Ty.mem_vars_iff, ← hnames, Hole.var_mem_numberAtoms]
  · rw [hnames, hcount]
    exact hholes
  · rw [hatoms, ← hnames, Hole.numberAtoms_eq_mapIdx]
    refine List.ext_getElem? fun i => ?_
    rw [List.getElem?_map, List.getElem?_mapIdx, List.getElem?_mapIdx, Option.map_map]
    rfl

/-- Two holes and a variable that is written twice, among names that only look like names of holes. -/
theorem annotate_fresh_of_lookalikes :
    let start : Session := { registry := {}, aliases := .empty }
    let t : Ty := .tuple [.named "_" [] [], .named "Vec" [] [.var 7, .named "_" [] []],
      .ref .elided true (.named "_2" [] []), .named "a_::__" [] [.var 7]]
    ∃ s, start.serveAll [.fresh] = some s ∧
      Ty.parse "(_, Vec<?7, _>, &mut _2, a_::__<?7>)" = .ok t ∧ t.Unambiguous ∧
      ∃ u, (s.annotate { construct := "let x" } "(_, Vec<?7, _>, &mut _2, a_::__<?7>)").2 = .ok u ∧
        t.FilledFresh [0] u := by
  intro start t
  have hrun : start.serveAll [.fresh] = some { start with fresher := ⟨1⟩ } := rfl
  have hparse : Ty.parse "(_, Vec<?7, _>, &mut _2, a_::__<?7>)" = .ok t := by
    have hcanonical : t.Canonical := by decide +kernel
    have hrender : t.render = "(_, Vec<?7, _>, &mut _2, a_::__<?7>)" := by decide +kernel
    exact hrender ▸ hcanonical.spellable.parse_render_of_legible hcanonical.legible
  have hunambiguous : t.Unambiguous := by decide +kernel
  obtain ⟨u, hannotate, hiff⟩ := annotate_fresh_iff hrun rfl
    (Aliases.sound_of_cache_eq_nil rfl) { construct := "let x" } hparse
  exact ⟨_, hrun, hparse, hunambiguous, u, hannotate,
    hiff.mpr ⟨hunambiguous, by decide +kernel⟩⟩

/-- A name that is also that of a hole becomes the variable of the hole. -/
theorem annotate_confuses :
    let start : Session := { registry := {}, aliases := .empty }
    let t : Ty := .tuple [.named "_0" [] [], .named "_" [] []]
    let u : Ty := .tuple [.var 0, .var 0]
    Ty.parse "(_0, _)" = .ok t ∧
      (start.annotate { construct := "let x" } "(_0, _)").2 = .ok u ∧ ¬ t.FilledFresh [] u := by
  intro start t u
  refine ⟨?_, ?_, ?_⟩
  · have hcanonical : t.Canonical := by decide +kernel
    have hrender : t.render = "(_0, _)" := by decide +kernel
    exact hrender ▸ hcanonical.spellable.parse_render_of_legible hcanonical.legible
  · -- the hole gets the name that the annotation had already
    let named : Ty := .tuple [.named "_0" [] [], .named "_0" [] []]
    have hcanonical : named.Canonical := by decide +kernel
    have hrender : named.render = (Hole.nameAll "(_0, _)").1 := by decide +kernel
    have hexpand : (start.aliases.expand (Hole.nameAll "(_0, _)").1).2 = .ok named :=
      (Aliases.sound_of_cache_eq_nil rfl).expand_of_nil rfl
        (hrender ▸ hcanonical.spellable.parse_render_of_legible hcanonical.legible)
    have hcount : (Hole.nameAll "(_0, _)").2 = 1 := by decide +kernel
    rw [annotate_of_ok hexpand, hcount]
    exact congrArg Except.ok (by decide +kernel)
  · rintro ⟨w, -, hatoms, -⟩
    -- the name is no hole, so it should have stayed
    have hkept : Ty.Atom.filled w 0 (.name "_0" false) = .name "_0" false := by
      rw [Ty.Atom.filled, if_neg (by decide)]
    have hfirst : u.atoms[0]? = some (Ty.Atom.filled w 0 (.name "_0" false)) := by
      rw [hatoms, List.getElem?_mapIdx]
      rfl
    rw [hkept] at hfirst
    cases hfirst

end Session

end Generics
