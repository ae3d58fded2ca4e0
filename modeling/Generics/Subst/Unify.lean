import Generics.Error
import Generics.Subst.Acyclic
import Generics.Ty.Printer

/-!
# Unification

Two types are made equal by binding variables. Unification works through a list of pairs: it resolves
the first pair against the bindings made so far and then drops it, binds a variable, splits it into
pairs of components, or finds that its two types clash. Bindings made before a failure stay.

Regions are not compared, and an absent return type is read as unit. The work ends because each
binding removes a variable from what is left, and every other step makes what is left smaller.
-/

namespace Generics

/-- What is to be done with a pair of resolved types. -/
inductive Ty.Confrontation where
  /-- Bind the variable to the type. -/
  | bind (v : VarId) (t : Ty)
  /-- The pair holds if these pairs do. -/
  | split (pairs : List (Ty × Ty))
  /-- The two types can not be made equal, for the reason given. -/
  | clash (context : String)

/-- Compares the outermost shapes of two types. -/
def Ty.confront : Ty → Ty → Confrontation
  | .var v, t => .bind v t
  | t, .var v => .bind v t
  | .prim p, .prim q => if p = q then .split [] else .clash s!"'{p}' is not '{q}'"
  | .named n rs as, .named m ss bs =>
    if n = m ∧ as.length = bs.length then .split (as.zip bs)
    else
      let (a, b) := (Ty.named n rs as, Ty.named m ss bs)
      .clash s!"'{a}' is not '{b}'"
  | .tuple as, .tuple bs =>
    if as.length = bs.length then .split (as.zip bs)
    else .clash s!"tuples of {as.length} and {bs.length} elements"
  | .array a n, .array b m =>
    if n = m then .split [(a, b)] else .clash s!"arrays of size {n} and {m}"
  | .ref _ p a, .ref _ q b =>
    if p = q then .split [(a, b)] else .clash "mutable and shared references"
  | .ptr p a, .ptr q b =>
    if p = q then .split [(a, b)] else .clash "*mut and *const pointers"
  | .fn as ra, .fn bs rb =>
    if as.length = bs.length then .split (as.zip bs ++ [(retOrUnit ra, retOrUnit rb)])
    else .clash s!"functions of {as.length} and {bs.length} parameters"
  | _, _ => .clash ""

/-! ## What a comparison yields -/

namespace Ty

/-- The components that unification looks at: an absent return type counts as unit. -/
def parts : Ty → List Ty
  | .fn params ret => params ++ [retOrUnit ret]
  | t => t.children

theorem size_eq_parts (t : Ty) : t.size = sizeList t.parts + 1 := by
  cases t with
  | fn params ret =>
    cases ret with
    | none => simp [size, parts, sizeList]
    | some r => simp [size, parts, retOrUnit, sizeList]
  | _ => simp [size, parts, children, sizeList]

theorem mem_vars_of_mem_parts {t p : Ty} (hp : p ∈ t.parts) {v : VarId} (hv : v ∈ p.vars) :
    v ∈ t.vars := by
  cases t with
  | fn params ret =>
    simp only [parts, List.mem_append, List.mem_singleton] at hp
    cases ret with
    | none =>
      rcases hp with hp | rfl
      · simpa [vars] using ⟨p, hp, hv⟩
      · -- a missing return type is the unit type, which has no variables
        simp [retOrUnit, unit, vars] at hv
    | some r =>
      rcases hp with hp | rfl
      · simpa [vars] using .inl ⟨p, hp, hv⟩
      · simpa [vars] using .inr hv
  | tuple elems => simpa [vars] using ⟨p, hp, hv⟩
  | named name regions args => simpa [vars] using ⟨p, hp, hv⟩
  | prim name => simp [parts, children] at hp
  | var id => simp [parts, children] at hp
  | array elem size =>
    obtain rfl : p = elem := by simpa [parts, children] using hp
    exact hv
  | ref region isMut inner =>
    obtain rfl : p = inner := by simpa [parts, children] using hp
    exact hv
  | ptr isMut inner =>
    obtain rfl : p = inner := by simpa [parts, children] using hp
    exact hv

theorem confront_bind {a b t : Ty} {v : VarId} (h : confront a b = .bind v t) :
    (a = .var v ∧ b = t) ∨ (b = .var v ∧ a = t) := by
  unfold confront at h
  split at h <;> grind

/-- A split pairs the components of the two types in order. -/
theorem confront_split {a b : Ty} {pairs : List (Ty × Ty)} (h : confront a b = .split pairs) :
    pairs = a.parts.zip b.parts ∧ a.parts.length = b.parts.length := by
  have hif {c : Prop} [Decidable c] {ps : List (Ty × Ty)} {context : String}
      (h : (if c then Confrontation.split ps else .clash context) = .split pairs) : c ∧ ps = pairs := by
    split at h
    · exact ⟨‹c›, Confrontation.split.inj h⟩
    · cases h
  unfold confront at h
  split at h
  case h_1 => cases h
  case h_2 => cases h
  case h_10 => cases h
  all_goals
    obtain ⟨hc, rfl⟩ := hif h
    clear h hif
    simp_all [parts, children, List.zip_append]

/-- Variables of the pairs come from the two types. -/
theorem vars_of_confront_split {a b : Ty} {pairs : List (Ty × Ty)} (h : confront a b = .split pairs)
    {p : Ty × Ty} (hp : p ∈ pairs) :
    (∀ v ∈ p.1.vars, v ∈ a.vars) ∧ (∀ v ∈ p.2.vars, v ∈ b.vars) := by
  rw [(confront_split h).1] at hp
  have hmem := List.of_mem_zip (a := p.1) (b := p.2) hp
  exact ⟨fun _ hv => mem_vars_of_mem_parts hmem.1 hv, fun _ hv => mem_vars_of_mem_parts hmem.2 hv⟩

/-- The pairs are together smaller than the two types. -/
theorem size_of_confront_split {a b : Ty} {pairs : List (Ty × Ty)} (h : confront a b = .split pairs) :
    sizeList (pairs.map Prod.fst) + sizeList (pairs.map Prod.snd) < a.size + b.size := by
  obtain ⟨rfl, hlen⟩ := confront_split h
  rw [List.map_fst_zip (Nat.le_of_eq hlen), List.map_snd_zip (Nat.le_of_eq hlen.symm),
    size_eq_parts a, size_eq_parts b]
  omega

end Ty

namespace Subst

/-! ## What is left of the work -/

/-- The variables left in the pairs once resolved, with repetitions. -/
def openVars (s : Subst) (work : List (Ty × Ty)) : List VarId :=
  work.flatMap fun p => (s.apply p.1).vars ++ (s.apply p.2).vars

/-- The number of different variables left in the pairs. -/
def openCount (s : Subst) (work : List (Ty × Ty)) : Nat := (s.openVars work).eraseDups.length

/-- The total size of the pairs once resolved. -/
def weight (s : Subst) (work : List (Ty × Ty)) : Nat :=
  Ty.sizeList ((work.map Prod.fst).map s.apply) + Ty.sizeList ((work.map Prod.snd).map s.apply)

theorem mem_openVars {s : Subst} {work : List (Ty × Ty)} {v : VarId} :
    v ∈ s.openVars work ↔ ∃ p ∈ work, v ∈ (s.apply p.1).vars ∨ v ∈ (s.apply p.2).vars := by
  simp [openVars]

/-- What is open in the rest is open in the whole. -/
theorem openVars_cons_subset (s : Subst) (p : Ty × Ty) (rest : List (Ty × Ty)) :
    ∀ v ∈ s.openVars rest, v ∈ s.openVars (p :: rest) := by
  intro v hv
  simp only [openVars, List.flatMap_cons, List.mem_append]
  exact .inr hv

/-- Dropping a pair makes the rest lighter and opens no variable. -/
theorem drop_lt (s : Subst) (p : Ty × Ty) (rest : List (Ty × Ty)) :
    s.openCount rest ≤ s.openCount (p :: rest) ∧ s.weight rest < s.weight (p :: rest) := by
  refine ⟨length_eraseDups_le (openVars_cons_subset s p rest), ?_⟩
  have := (s.apply p.1).size_pos
  simp only [weight, List.map_cons, Ty.sizeList]
  omega

/-- The components of a pair that splits are resolved, as the pair was. -/
theorem resolved_of_confront_split {s : Subst} (hs : s.Acyclic) {p : Ty × Ty}
    {pairs : List (Ty × Ty)} (h : Ty.confront (s.apply p.1) (s.apply p.2) = .split pairs)
    {q : Ty × Ty} (hq : q ∈ pairs) : s.Resolved q.1 ∧ s.Resolved q.2 :=
  ⟨fun v hv => hs.resolved_apply p.1 v ((Ty.vars_of_confront_split h hq).1 v hv),
    fun v hv => hs.resolved_apply p.2 v ((Ty.vars_of_confront_split h hq).2 v hv)⟩

/-- Splitting a pair opens no variable. -/
theorem openVars_split_subset {s : Subst} (hs : s.Acyclic) {p : Ty × Ty} {pairs : List (Ty × Ty)}
    (h : Ty.confront (s.apply p.1) (s.apply p.2) = .split pairs) (rest : List (Ty × Ty)) :
    ∀ v ∈ s.openVars (pairs ++ rest), v ∈ s.openVars (p :: rest) := by
  intro v hv
  obtain ⟨q, hq, hv⟩ := mem_openVars.mp hv
  refine mem_openVars.mpr ?_
  rcases List.mem_append.mp hq with hq | hq
  · obtain ⟨hleft, hright⟩ := resolved_of_confront_split hs h hq
    rw [hleft.vars_apply, hright.vars_apply] at hv
    obtain ⟨hsub₁, hsub₂⟩ := Ty.vars_of_confront_split h hq
    exact ⟨p, List.mem_cons_self, hv.imp (hsub₁ v) (hsub₂ v)⟩
  · exact ⟨q, List.mem_cons_of_mem p hq, hv⟩

/-- Splitting a pair makes the work lighter and opens no variable. -/
theorem split_lt {s : Subst} (hs : s.Acyclic) {p : Ty × Ty} {pairs : List (Ty × Ty)}
    (h : Ty.confront (s.apply p.1) (s.apply p.2) = .split pairs) (rest : List (Ty × Ty)) :
    s.openCount (pairs ++ rest) ≤ s.openCount (p :: rest) ∧
      s.weight (pairs ++ rest) < s.weight (p :: rest) := by
  refine ⟨length_eraseDups_le (openVars_split_subset hs h rest), ?_⟩
  have hleft : Ty.sizeList ((pairs.map Prod.fst).map s.apply) = Ty.sizeList (pairs.map Prod.fst) := by
    refine Ty.sizeList_map_congr fun t ht => ?_
    obtain ⟨q, hq, rfl⟩ := List.mem_map.mp ht
    exact (resolved_of_confront_split hs h hq).1.size_apply
  have hright : Ty.sizeList ((pairs.map Prod.snd).map s.apply) = Ty.sizeList (pairs.map Prod.snd) := by
    refine Ty.sizeList_map_congr fun t ht => ?_
    obtain ⟨q, hq, rfl⟩ := List.mem_map.mp ht
    exact (resolved_of_confront_split hs h hq).2.size_apply
  have hlt := Ty.size_of_confront_split h
  simp only [weight, List.map_append, Ty.sizeList_append, List.map_cons, Ty.sizeList]
  omega

/-- A variable to be bound is unbound, and its type is resolved. -/
theorem resolved_of_confront_bind {s : Subst} (hs : s.Acyclic) {p : Ty × Ty} {v : VarId} {t : Ty}
    (h : Ty.confront (s.apply p.1) (s.apply p.2) = .bind v t) :
    s.isBound v = false ∧ s.Resolved t := by
  have hleft := hs.resolved_apply p.1
  have hright := hs.resolved_apply p.2
  rcases Ty.confront_bind h with ⟨hvar, hterm⟩ | ⟨hvar, hterm⟩
  · rw [hvar] at hleft
    rw [hterm] at hright
    exact ⟨hleft v (by simp [Ty.vars]), hright⟩
  · rw [hvar] at hright
    rw [hterm] at hleft
    exact ⟨hright v (by simp [Ty.vars]), hleft⟩

theorem lex_of_le_of_lt {a b c d : Nat} (hle : a ≤ b) (hlt : c < d) :
    Prod.Lex (· < ·) (· < ·) (a, c) (b, d) := by
  rcases Nat.lt_or_eq_of_le hle with h | rfl
  · exact Prod.Lex.left _ _ h
  · exact Prod.Lex.right _ hlt

/-- The variable to be bound, and those of its type, are open in the pair. -/
theorem mem_openVars_of_confront_bind {s : Subst} {p : Ty × Ty} {v : VarId} {t : Ty}
    (h : Ty.confront (s.apply p.1) (s.apply p.2) = .bind v t) (rest : List (Ty × Ty)) {w : VarId}
    (hw : w = v ∨ w ∈ t.vars) : w ∈ s.openVars (p :: rest) := by
  refine mem_openVars.mpr ⟨p, List.mem_cons_self, ?_⟩
  rcases Ty.confront_bind h with ⟨hvar, hterm⟩ | ⟨hvar, hterm⟩ <;> rw [hvar, hterm] <;>
    rcases hw with rfl | hw <;> simp [Ty.vars, *]

/-- One more binding closes its variable, and opens at most the variables of its type. -/
theorem mem_openVars_insert {s : Subst} (hs : s.Acyclic) {v : VarId} {t : Ty}
    (hv : s.isBound v = false) (ht : s.Resolved t) (hocc : v ∉ t.vars) {work : List (Ty × Ty)}
    {w : VarId} (hw : w ∈ (s.insert v t).openVars work) :
    w ≠ v ∧ (w ∈ s.openVars work ∨ w ∈ t.vars) := by
  obtain ⟨q, hq, hw⟩ := mem_openVars.mp hw
  rw [hs.mem_vars_apply_insert hv ht hocc, hs.mem_vars_apply_insert hv ht hocc] at hw
  rcases hw with (⟨hne, hw⟩ | ⟨hwt, -⟩) | (⟨hne, hw⟩ | ⟨hwt, -⟩)
  · exact ⟨hne, .inl (mem_openVars.mpr ⟨q, hq, .inl hw⟩)⟩
  · exact ⟨fun heq => hocc (heq ▸ hwt), .inr hwt⟩
  · exact ⟨hne, .inl (mem_openVars.mpr ⟨q, hq, .inr hw⟩)⟩
  · exact ⟨fun heq => hocc (heq ▸ hwt), .inr hwt⟩

/-- Binding a variable of a pair opens no variable in the rest of the work. -/
theorem openVars_bind_subset {s : Subst} (hs : s.Acyclic) {p : Ty × Ty} {v : VarId} {t : Ty}
    (h : Ty.confront (s.apply p.1) (s.apply p.2) = .bind v t) (hocc : v ∉ t.vars)
    (rest : List (Ty × Ty)) :
    ∀ w ∈ (s.insert v t).openVars rest, w ∈ s.openVars (p :: rest) := by
  intro w hw
  obtain ⟨hv, ht⟩ := resolved_of_confront_bind hs h
  rcases (mem_openVars_insert hs hv ht hocc hw).2 with hw | hw
  · exact openVars_cons_subset s p rest w hw
  · exact mem_openVars_of_confront_bind h rest (.inr hw)

/-- Binding a variable of a pair removes it from the work. -/
theorem bind_lt {s : Subst} (hs : s.Acyclic) {p : Ty × Ty} {v : VarId} {t : Ty}
    (h : Ty.confront (s.apply p.1) (s.apply p.2) = .bind v t) (hocc : v ∉ t.vars)
    (rest : List (Ty × Ty)) :
    (s.insert v t).openCount rest < s.openCount (p :: rest) := by
  obtain ⟨hv, ht⟩ := resolved_of_confront_bind hs h
  refine length_eraseDups_lt (openVars_bind_subset hs h hocc rest)
    (mem_openVars_of_confront_bind h rest (.inl rfl)) fun hmem => ?_
  exact (mem_openVars_insert hs hv ht hocc hmem).1 rfl

/-! ## Unification -/

/-- Makes the two types of each pair equal, one pair after the other. `goal` is the pair of types that
a mismatch reports. -/
def unifyAll (goal : Ty × Ty) (s : Subst) (hs : s.Acyclic) :
    List (Ty × Ty) → Subst × Except Error Unit
  | [] => (s, .ok ())
  | p :: rest =>
    match h : Ty.confront (s.apply p.1) (s.apply p.2) with
    | .split pairs => unifyAll goal s hs (pairs ++ rest)
    | .clash context =>
      (s, .error (.typeMismatch (s.apply goal.1).render (s.apply goal.2).render context))
    | .bind v t =>
      if t = .var v then unifyAll goal s hs rest
      else if hocc : t.occurs v then (s, .error (.infiniteType (Ty.var v).render t.render))
      else
        have hmem : v ∉ t.vars := fun hv => hocc (Ty.occurs_iff.mpr hv)
        have hbind := resolved_of_confront_bind hs h
        unifyAll goal (s.insert v t) (hs.insert hbind.1 hbind.2 hmem) rest
termination_by work => (s.openCount work, s.weight work)
decreasing_by
  · have := split_lt hs h rest
    exact lex_of_le_of_lt this.1 this.2
  · have := drop_lt s p rest
    exact lex_of_le_of_lt this.1 this.2
  · exact Prod.Lex.left _ _ (bind_lt hs h hmem rest)

/-- Makes two types equal by binding variables, or says why they can not be. In a substitution with a
cycle the types of the cycle are infinite, and nothing is bound. -/
def unify (s : Subst) (a b : Ty) : Subst × Except Error Unit :=
  if hs : s.Acyclic then s.unifyAll (a, b) hs [(a, b)]
  else (s, .error (.infiniteType a.render b.render))

/-- Makes a variable stand for a type. The type is resolved first, and may not mention the variable
then; binding a variable to itself does nothing. The type stored for a bound variable stays and is
unified with the new one. -/
def bind (s : Subst) (v : VarId) (t : Ty) : Subst × Except Error Unit :=
  match s.lookup v with
  | some stored => s.unify stored t
  | none =>
    let applied := s.apply t
    if applied = .var v then (s, .ok ())
    else if applied.occurs v then (s, .error (.infiniteType (Ty.var v).render applied.render))
    else (s.insert v applied, .ok ())

end Subst

end Generics
