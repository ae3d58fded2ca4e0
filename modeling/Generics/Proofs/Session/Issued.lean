import Generics.Proofs.Fresh
import Generics.Proofs.Session.Run

/-!
# Variables issued by a session

A session issues variables when it is asked for a fresh one and when it reads an annotation. It counts
them with 64 bits and starts over after the last. So the variables that it has issued are those below
the number of variables issued, whatever else it was asked in between.

## Main results

* `Ty.mem_vars_replaceBareNames`: the variables of a type with its names replaced;
* `Hole.mem_vars_fill`: which variables the holes of an annotation get;
* `Session.exists_issued`: which variables a session has issued along a run.
-/

namespace Generics

/-- Replacing names keeps the variables of a type and adds those of what the names stand for. -/
theorem Ty.mem_vars_replaceBareNames {f : String → Option Ty} {t : Ty} {w : VarId} :
    w ∈ (t.replaceBareNames f).vars ↔
      w ∈ t.vars ∨ ∃ name ∈ t.bareNames, ∃ u, f name = some u ∧ w ∈ u.vars := by
  have hlist {ts : List Ty} (hts : ∀ t ∈ ts, w ∈ (t.replaceBareNames f).vars ↔
      w ∈ t.vars ∨ ∃ name ∈ t.bareNames, ∃ u, f name = some u ∧ w ∈ u.vars) :
      w ∈ (ts.map (replaceBareNames f)).flatMap vars ↔ w ∈ ts.flatMap vars ∨
        ∃ name ∈ ts.flatMap bareNames, ∃ u, f name = some u ∧ w ∈ u.vars := by
    simp only [List.mem_flatMap, List.mem_map]
    grind
  induction t with
  | prim name => simp [replaceBareNames, vars, bareNames]
  | var id => simp [replaceBareNames, vars, bareNames]
  | tuple elems ih => simpa [replaceBareNames, vars, bareNames] using hlist ih
  | array elem size ih => exact ih
  | ref region isMut inner ih => exact ih
  | ptr isMut inner ih => exact ih
  | fn params ret ih ihret =>
    cases ret with
    | none => simpa [replaceBareNames, vars, bareNames, unit] using hlist ih
    | some ret =>
      have hparams := hlist ih
      have hret := ihret ret rfl
      simp only [replaceBareNames, vars, bareNames, varsList_eq_flatMap, bareNamesList_eq_flatMap,
        replaceBareNamesList_eq_map, List.mem_append, hparams, hret]
      grind
  | named name regions args ih =>
    -- only a name with nothing behind it is replaced
    by_cases hbare : regions = [] ∧ args = []
    · obtain ⟨rfl, rfl⟩ := hbare
      cases hf : f name <;> simp [replaceBareNames, vars, bareNames, hf]
    · rw [replaceBareNames_applied hbare, bareNames_applied hbare, vars, vars, varsList_eq_flatMap,
        varsList_eq_flatMap]
      exact hlist ih

namespace Hole

theorem next_issueVars {f : Fresher} {n : Nat} (hf : f.next = .ofNat n) (names : List String) :
    (issueVars f names).2.next = .ofNat (n + names.length) := by
  induction names generalizing f n with
  | nil => exact hf
  | cons name names ih =>
    show (issueVars f.fresh.2 names).2.next = _
    rw [ih (Fresher.next_fresh hf), List.length_cons, Nat.add_assoc, Nat.add_comm 1]

/-- Each name gets the variable of its place. -/
theorem lookup_issueVars {f : Fresher} {n : Nat} (hf : f.next = .ofNat n) (names : List String)
    (name : String) :
    (issueVars f names).1.lookup name =
      if name ∈ names then some (.ofNat (n + names.idxOf name)) else none := by
  induction names generalizing f n with
  | nil => rfl
  | cons first names ih =>
    show List.lookup name ((first, f.next) :: (issueVars f.fresh.2 names).1) = _
    rw [List.lookup_cons, ih (Fresher.next_fresh hf)]
    by_cases heq : name = first
    · simp [heq, hf]
    · have hne : (name == first) = false := beq_false_of_ne heq
      have hne' : (first == name) = false := beq_false_of_ne (Ne.symm heq)
      simp [hne, hne', heq, List.idxOf_cons, Nat.add_assoc, Nat.add_comm 1]

/-- The names of holes that a type has, in order. -/
def present (count : Nat) (t : Ty) : List String :=
  (t.bareNames.filter fun name => ((List.range count).map Hole.name).contains name).eraseDups

/-- The holes get variables in order. -/
theorem mem_vars_fill {f : Fresher} {n : Nat} (hf : f.next = .ofNat n) (count : Nat) (t : Ty) :
    (fill f count t).2.next = .ofNat (n + (present count t).length) ∧
      ∀ w, w ∈ (fill f count t).1.vars ↔
        w ∈ t.vars ∨ Fresher.Among n (present count t).length w := by
  refine ⟨next_issueVars hf _, fun w => ?_⟩
  show w ∈ (t.replaceBareNames fun name =>
    ((issueVars f (present count t)).1.lookup name).map .var).vars ↔ _
  rw [Ty.mem_vars_replaceBareNames]
  refine or_congr_right ⟨?_, ?_⟩
  · rintro ⟨name, -, u, hu, hw⟩
    rw [lookup_issueVars hf] at hu
    split at hu
    · rename_i hmem
      obtain rfl := Option.some.inj hu
      exact ⟨_, List.idxOf_lt_length_of_mem hmem, by simpa [Ty.vars] using hw⟩
    · cases hu
  · rintro ⟨i, hi, rfl⟩
    -- the hole at this place got the variable with this number
    have hmem := List.getElem_mem hi
    refine ⟨(present count t)[i], ?_, .var (.ofNat (n + i)), ?_, by simp [Ty.vars]⟩
    · exact List.mem_of_mem_filter (List.mem_eraseDups.mp hmem)
    · have hnodup : (present count t).Nodup := nodup_eraseDups _
      rw [lookup_issueVars hf, if_pos hmem, List.Nodup.idxOf_getElem hnodup]
      rfl

end Hole

namespace Session

/-! ## Along a run -/

/-- The variables that the answer to a request brings. -/
def issues (s : Session) : Request → List VarId
  | .annotate origin text =>
    match (s.annotate origin text).2 with
    | .ok t => t.vars
    | .error _ => []
  | .fresh => s.fresh.1.vars
  | _ => []

/-- The variables that the session issues along a run. -/
def issuedAlong (s : Session) : List Request → List VarId
  | [] => []
  | r :: rs => s.issues r ++
    match s.serve r with
    | some s => s.issuedAlong rs
    | none => []

theorem annotate_of_error {s : Session} {text : String} {e : Error}
    (h : (s.aliases.expand (Hole.nameAll text).1).2 = .error e) (origin : Origin) :
    s.annotate origin text =
      { s with aliases := (s.aliases.expand (Hole.nameAll text).1).1 }.conclude origin (.error e) := by
  unfold annotate
  simp only [h]

/-- An annotation that can be expanded gets variables for what was written as one and then for its
holes. -/
theorem annotate_of_ok {s : Session} {text : String} {t : Ty}
    (h : (s.aliases.expand (Hole.nameAll text).1).2 = .ok t) (origin : Origin) :
    s.annotate origin text =
      let filled := Hole.fill (s.fresher.renameAlone t).2 (Hole.nameAll text).2
        (s.fresher.renameAlone t).1
      ({ s with aliases := (s.aliases.expand (Hole.nameAll text).1).1, fresher := filled.2 },
        .ok filled.1) := by
  unfold annotate
  simp only [h]

/-- The variables of an annotation are the next ones. -/
theorem mem_issues_annotate {s : Session} {n : Nat} (hn : s.fresher.next = .ofNat n)
    (origin : Origin) (text : String) :
    ∃ k, (s.annotate origin text).1.fresher.next = .ofNat (n + k) ∧
      ∀ w, w ∈ s.issues (.annotate origin text) ↔ Fresher.Among n k w := by
  rw [issues]
  cases hexpand : (s.aliases.expand (Hole.nameAll text).1).2 with
  | error e =>
    rw [annotate_of_error hexpand]
    refine ⟨0, (congrArg Fresher.next (keeps_conclude _ origin _).fresher).trans hn, fun w => ?_⟩
    simp [conclude, Fresher.not_among_zero]
  | ok t =>
    rw [annotate_of_ok hexpand]
    obtain ⟨hnext, hrenamed⟩ := Fresher.mem_vars_renameAlone hn t
    obtain ⟨hlast, hfilled⟩ := Hole.mem_vars_fill hnext (Hole.nameAll text).2
      (s.fresher.renameAlone t).1
    rw [Nat.add_assoc] at hlast
    -- first those of the variables that were written, then those of the holes
    refine ⟨_, hlast, fun w => ?_⟩
    rw [Fresher.among_add, ← hrenamed]
    exact hfilled w

/-- What one request issues: the next variables, or none. -/
theorem mem_issues {s s' : Session} {r : Request} (h : s.serve r = some s') {n : Nat}
    (hn : s.fresher.next = .ofNat n) :
    ∃ k, s'.fresher.next = .ofNat (n + k) ∧ ∀ w, w ∈ s.issues r ↔ Fresher.Among n k w := by
  -- most requests leave the counter alone
  have hkeeps (hsame : s'.fresher = s.fresher) (hnone : s.issues r = []) :
      ∃ k, s'.fresher.next = .ofNat (n + k) ∧
        ∀ w, w ∈ s.issues r ↔ Fresher.Among n k w :=
    ⟨0, (congrArg Fresher.next hsame).trans hn, fun w => by simp [hnone, Fresher.not_among_zero]⟩
  cases r with
  | annotate origin text =>
    obtain rfl := Option.some.inj h
    exact mem_issues_annotate hn origin text
  | fresh =>
    obtain rfl := Option.some.inj h
    refine ⟨1, Fresher.next_fresh hn, fun w => ?_⟩
    simp [issues, Session.fresh, Fresher.fresh, Ty.vars, hn, Fresher.Among]
  | unify origin a b =>
    obtain rfl := Option.some.inj h
    exact hkeeps (keeps_unify s origin a b).fresher rfl
  | _ => exact hkeeps (keeps_serve rfl h).fresher rfl

/-- Along a run the session issues the next variables. -/
theorem mem_issuedAlong {s s' : Session} {requests : List Request}
    (h : s.serveAll requests = some s') {n : Nat} (hn : s.fresher.next = .ofNat n) :
    ∃ k, s'.fresher.next = .ofNat (n + k) ∧
      ∀ w, w ∈ s.issuedAlong requests ↔ Fresher.Among n k w := by
  induction requests generalizing s n with
  | nil =>
    obtain rfl := Option.some.inj h
    exact ⟨0, hn, fun w => by simp [issuedAlong, Fresher.not_among_zero]⟩
  | cons r rs ih =>
    obtain ⟨served, hserve, hrest⟩ := Option.bind_eq_some_iff.mp h
    obtain ⟨k, hk, hfirst⟩ := mem_issues hserve hn
    obtain ⟨l, hl, hlater⟩ := ih hrest hk
    refine ⟨k + l, by rw [hl, Nat.add_assoc], fun w => ?_⟩
    rw [issuedAlong, hserve, List.mem_append, Fresher.among_add, hfirst, hlater]

/-- The variables that a session has issued are those below the number of variables issued. -/
theorem exists_issued {registry : Registry} {aliases : Aliases} {requests : List Request} {s : Session}
    (h : serveAll { registry, aliases } requests = some s) :
    ∃ n, s.fresher.next = .ofNat n ∧
      ∀ w, w ∈ issuedAlong { registry, aliases } requests ↔ w.toNat < n := by
  obtain ⟨n, hn, hissued⟩ := mem_issuedAlong h (n := 0) rfl
  rw [Nat.zero_add] at hn
  exact ⟨n, hn, fun w => (hissued w).trans Fresher.among_zero_iff⟩

end Session

end Generics
