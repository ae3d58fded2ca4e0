import Generics.Text.Split

/-!
# Brackets in a text

A text is split at the commas outside brackets. Which parts come out depends on how deep each character
stands. `Text.depthAfter?` is the depth after a text, if no bracket closes that was not opened; the
strict depth also fails at a comma outside brackets, so a text with a strict depth stays in one part
wherever it stands.

## Main results

* `Text.depthAfter?_append` and `Text.Mark.depthAfter?_add`: the depth after one text and another, and
  from deeper brackets on;
* `Text.partsAtDepth_append`: a text without a comma outside brackets is not split;
* `Text.depthAfter?_partsAtDepth`: the parts of a text end as deep as they begin;
* `Text.intercalate_injective`: texts without commas outside brackets can be told from their list.
-/

namespace Generics.Text

/-- What a character is to the splitting of a text. -/
inductive Mark where
  | opening
  | closing
  | comma
  | plain
deriving DecidableEq

/-- The `>` of an arrow is no bracket. -/
def mark (previous : Option Char) (c : Char) : Mark :=
  if c = '(' ∨ c = '[' ∨ c = '<' then .opening
  else if c = ')' ∨ c = ']' ∨ (c = '>' ∧ previous ≠ some '-') then .closing
  else if c = ',' then .comma
  else .plain

/-- The depth after a character of the kind. A bracket that closes must have been opened, and a strict
depth allows no comma outside brackets. -/
def Mark.step (strict : Bool) : Mark → Nat → Option Nat
  | .opening, depth => some (depth + 1)
  | .closing, 0 => none
  | .closing, depth + 1 => some depth
  | .comma, depth => if strict && depth = 0 then none else some depth
  | .plain, depth => some depth

/-- The depth after characters of the kinds. -/
def Mark.depthAfter? (strict : Bool) (depth : Nat) : List Mark → Option Nat
  | [] => some depth
  | m :: ms => (m.step strict depth).bind fun depth => depthAfter? strict depth ms

/-- The kinds of the characters of a text after the character `previous`. -/
def marks (previous : Option Char) : List Char → List Mark
  | [] => []
  | c :: cs => mark previous c :: marks (some c) cs

/-- The depth after a text that stands `depth` brackets deep after the character `previous`. -/
def depthAfter? (strict : Bool) (depth : Nat) (previous : Option Char) (cs : List Char) : Option Nat :=
  Mark.depthAfter? strict depth (marks previous cs)

/-- Every bracket of the text is closed in it. -/
def isBalanced (cs : List Char) : Bool := depthAfter? false 0 none cs = some 0

/-- Every bracket of the text is closed in it, and all of its commas are in brackets. -/
def isSealed (cs : List Char) : Bool := depthAfter? true 0 none cs = some 0

/-- The last character of a text after the character `previous`. -/
def lastAfter (previous : Option Char) (cs : List Char) : Option Char := cs.getLast?.or previous

@[simp] theorem lastAfter_nil (previous : Option Char) : lastAfter previous [] = previous := rfl

@[simp] theorem lastAfter_cons (previous : Option Char) (c : Char) (cs : List Char) :
    lastAfter previous (c :: cs) = lastAfter (some c) cs := by
  unfold lastAfter
  cases cs with
  | nil => rfl
  | cons d ds => simp [List.getLast?_eq_some_getLast]

/-- The last character of two texts one after the other. -/
theorem lastAfter_append (previous : Option Char) (cs ds : List Char) :
    lastAfter previous (cs ++ ds) = lastAfter (lastAfter previous cs) ds := by
  induction cs generalizing previous with
  | nil => rfl
  | cons c cs ih => rw [List.cons_append, lastAfter_cons, lastAfter_cons, ih]

/-! ## Depth -/

/-- Before a character it matters only whether there is a dash. -/
theorem mark_congr {previous previous' : Option Char}
    (h : previous = some '-' ↔ previous' = some '-') (c : Char) :
    mark previous c = mark previous' c := by
  simp only [mark, Ne, h]

/-- Only a comma is marked as one. -/
theorem mark_eq_comma_iff {previous : Option Char} {c : Char} :
    mark previous c = .comma ↔ c = ',' := by
  unfold mark
  split
  · rename_i hopening
    refine iff_of_false nofun ?_
    rintro rfl
    revert hopening
    decide
  · split
    · rename_i hclosing
      refine iff_of_false nofun ?_
      rintro rfl
      simp at hclosing
    · split <;> simp_all

/-- Of the character before it only matters whether it is a dash. -/
theorem depthAfter?_congr {previous previous' : Option Char}
    (h : previous = some '-' ↔ previous' = some '-') (strict : Bool) (depth : Nat) (cs : List Char) :
    depthAfter? strict depth previous cs = depthAfter? strict depth previous' cs := by
  cases cs with
  | nil => rfl
  | cons c cs => rw [depthAfter?, depthAfter?, marks, marks, mark_congr h]

/-- The first character moves the depth, and the rest goes on from there. -/
theorem depthAfter?_cons (strict : Bool) (depth : Nat) (previous : Option Char) (c : Char)
    (cs : List Char) :
    depthAfter? strict depth previous (c :: cs) = ((mark previous c).step strict depth).bind
      fun depth => depthAfter? strict depth (some c) cs := rfl

/-- The marks of two texts one after the other. -/
theorem marks_append (previous : Option Char) (cs ds : List Char) :
    marks previous (cs ++ ds) = marks previous cs ++ marks (lastAfter previous cs) ds := by
  induction cs generalizing previous with
  | nil => rfl
  | cons c cs ih => rw [List.cons_append, marks, marks, ih, lastAfter_cons, List.cons_append]

namespace Mark

theorem depthAfter?_append (strict : Bool) (depth : Nat) (ms ns : List Mark) :
    depthAfter? strict depth (ms ++ ns) =
      (depthAfter? strict depth ms).bind fun depth => depthAfter? strict depth ns := by
  induction ms generalizing depth with
  | nil => rfl
  | cons m ms ih => simp only [List.cons_append, depthAfter?, Option.bind_assoc, ih]

/-- A step does the same farther down. -/
theorem step_add {strict : Bool} {m : Mark} {depth next : Nat}
    (h : m.step strict depth = some next) (more : Nat) :
    m.step strict (depth + more) = some (next + more) := by
  cases m with
  | opening =>
    obtain rfl := Option.some.inj h
    exact congrArg some (by omega)
  | closing =>
    cases depth with
    | zero => cases h
    | succ depth =>
      obtain rfl := Option.some.inj h
      rw [Nat.succ_add]
      rfl
  | comma =>
    simp only [step, Option.ite_none_left_eq_some, Option.some.injEq] at h ⊢
    obtain ⟨hcomma, rfl⟩ := h
    refine ⟨fun hmore => hcomma ?_, rfl⟩
    simp only [Bool.and_eq_true, decide_eq_true_eq] at hmore ⊢
    exact ⟨hmore.1, by omega⟩
  | plain =>
    obtain rfl := Option.some.inj h
    rfl

/-- Deeper in brackets a text is as good. -/
theorem depthAfter?_add {strict : Bool} {depth next : Nat} {ms : List Mark}
    (h : depthAfter? strict depth ms = some next) (more : Nat) :
    depthAfter? strict (depth + more) ms = some (next + more) := by
  induction ms generalizing depth with
  | nil =>
    obtain rfl := Option.some.inj h
    rfl
  | cons m ms ih =>
    obtain ⟨between, hstep, hrest⟩ := Option.bind_eq_some_iff.mp h
    rw [depthAfter?, step_add hstep, Option.bind_some]
    exact ih hrest

/-- A step that is strict is a step. -/
theorem step_of_strict {m : Mark} {depth next : Nat} (h : m.step true depth = some next)
    (strict : Bool) : m.step strict depth = some next := by
  cases m with
  | comma =>
    simp only [step, Option.ite_none_left_eq_some, Option.some.injEq] at h ⊢
    refine ⟨fun hcomma => h.1 ?_, h.2⟩
    rw [Bool.and_eq_true] at hcomma ⊢
    exact ⟨rfl, hcomma.2⟩
  | closing => cases depth <;> exact h
  | _ => exact h

/-- A strict depth is a depth. -/
theorem depthAfter?_of_strict {depth next : Nat} {ms : List Mark}
    (h : depthAfter? true depth ms = some next) (strict : Bool) :
    depthAfter? strict depth ms = some next := by
  induction ms generalizing depth with
  | nil => exact h
  | cons m ms ih =>
    obtain ⟨between, hstep, hrest⟩ := Option.bind_eq_some_iff.mp h
    rw [depthAfter?, step_of_strict hstep, Option.bind_some]
    exact ih hrest

end Mark

theorem depthAfter?_append (strict : Bool) (depth : Nat) (previous : Option Char)
    (cs ds : List Char) :
    depthAfter? strict depth previous (cs ++ ds) = (depthAfter? strict depth previous cs).bind
      fun depth => depthAfter? strict depth (lastAfter previous cs) ds := by
  rw [depthAfter?, marks_append, Mark.depthAfter?_append]
  rfl

/-- The character is no bracket, no comma and no dash. -/
def isPlain (c : Char) : Bool := !List.contains ['(', ')', '[', ']', '<', '>', ',', '-'] c

/-- Plain characters have no mark. -/
theorem mark_of_isPlain {c : Char} (h : isPlain c = true) (previous : Option Char) :
    mark previous c = .plain := by
  simp only [isPlain, Bool.not_eq_true', List.contains_eq_mem, List.mem_cons, List.not_mem_nil,
    or_false, decide_eq_false_iff_not, not_or] at h
  simp [mark, h]

/-- Characters that are no brackets and no commas do not matter, nor what stands before them. -/
theorem depthAfter?_plain {cs : List Char} (hcs : cs.all isPlain = true) (strict : Bool) (depth : Nat)
    {previous : Option Char} (hprevious : previous ≠ some '-') (ds : List Char) :
    depthAfter? strict depth previous (cs ++ ds) = depthAfter? strict depth none ds := by
  induction cs generalizing previous with
  | nil => exact depthAfter?_congr (by simpa using hprevious) strict depth ds
  | cons c cs ih =>
    rw [List.all_cons, Bool.and_eq_true] at hcs
    rw [List.cons_append, depthAfter?_cons, mark_of_isPlain hcs.1]
    refine ih hcs.2 ?_
    rintro ⟨⟩
    cases hcs.1

/-- Plain characters do not move the depth. -/
theorem depthAfter?_of_plain {cs : List Char} (h : cs.all isPlain = true) (strict : Bool) (depth : Nat)
    (previous : Option Char) : depthAfter? strict depth previous cs = some depth := by
  induction cs generalizing previous with
  | nil => rfl
  | cons c cs ih =>
    rw [List.all_cons, Bool.and_eq_true] at h
    rw [depthAfter?_cons, mark_of_isPlain h.1]
    exact ih h.2 (some c)

/-- Parentheses around a text that ends as deep as it begins do not matter to what follows. -/
theorem depthAfter?_group {strict : Bool} {inside : List Char}
    (h : depthAfter? strict 1 none inside = some 1) (depth : Nat) (previous : Option Char)
    (cs : List Char) :
    depthAfter? strict depth previous ('(' :: (inside ++ ')' :: cs)) =
      depthAfter? strict depth none cs := by
  have hinside : depthAfter? strict (depth + 1) (some '(') inside = some (depth + 1) := by
    have hdeeper := Mark.depthAfter?_add h depth
    rw [Nat.add_comm] at hdeeper
    exact (depthAfter?_congr (by decide) strict (depth + 1) inside).trans hdeeper
  show depthAfter? strict (depth + 1) (some '(') (inside ++ ')' :: cs) = _
  rw [depthAfter?_append, hinside]
  exact depthAfter?_congr (by decide) strict depth cs

/-! ## Splitting -/

/-- One more character of the first part. -/
def addFront (c : Char) (p : List Char × List (List Char)) : List Char × List (List Char) :=
  (c :: p.1, p.2)

/-- What the first character does when a text is split at its commas. -/
theorem partsAtDepth_cons (depth : Int) (previous : Option Char) (c : Char) (cs : List Char) :
    partsAtDepth ',' depth previous (c :: cs) =
      match mark previous c with
      | .opening => addFront c (partsAtDepth ',' (depth + 1) (some c) cs)
      | .closing => addFront c (partsAtDepth ',' (depth - 1) (some c) cs)
      | .comma =>
        let p := partsAtDepth ',' depth (some c) cs
        if depth = 0 then ([], p.1 :: p.2) else addFront c p
      | .plain => addFront c (partsAtDepth ',' depth (some c) cs) := by
  rw [partsAtDepth]
  unfold mark
  split
  · rfl
  · split
    · rfl
    · by_cases hcomma : c = ','
      · by_cases hdepth : depth = 0
        · simp [hcomma, hdepth]
        · simp [hcomma, hdepth, addFront]
      · simp [hcomma, addFront]

/-- The parts of a text with the commas between them. -/
theorem partsAtDepth_append_flatMap (depth : Int) (previous : Option Char) (cs : List Char) :
    (partsAtDepth ',' depth previous cs).1 ++
      (partsAtDepth ',' depth previous cs).2.flatMap (',' :: ·) = cs := by
  induction cs generalizing depth previous with
  | nil => rfl
  | cons c cs ih =>
    rw [partsAtDepth_cons]
    cases hmark : mark previous c with
    | comma =>
      obtain rfl := mark_eq_comma_iff.mp hmark
      by_cases hdepth : depth = 0
      · simp only [if_pos hdepth, List.nil_append, List.flatMap_cons]
        exact congrArg (',' :: ·) (ih depth (some ','))
      · simp only [if_neg hdepth]
        exact congrArg (',' :: ·) (ih depth (some ','))
    | opening => exact congrArg (c :: ·) (ih (depth + 1) (some c))
    | closing => exact congrArg (c :: ·) (ih (depth - 1) (some c))
    | plain => exact congrArg (c :: ·) (ih depth (some c))

/-- A text without a comma outside brackets is not split, however deep it stands. -/
theorem partsAtDepth_append {depth next : Nat} {previous : Option Char} {cs : List Char}
    (h : depthAfter? true depth previous cs = some next) (base : Nat) (rest : List Char) :
    partsAtDepth ',' ((base : Int) + depth) previous (cs ++ rest) =
      (cs ++ (partsAtDepth ',' ((base : Int) + next) (lastAfter previous cs) rest).1,
        (partsAtDepth ',' ((base : Int) + next) (lastAfter previous cs) rest).2) := by
  induction cs generalizing depth previous with
  | nil =>
    obtain rfl := Option.some.inj h
    rfl
  | cons c cs ih =>
    obtain ⟨between, hstep, hrest⟩ := Option.bind_eq_some_iff.mp h
    have hcs := ih hrest
    rw [List.cons_append, partsAtDepth_cons, lastAfter_cons]
    -- counted from `base` on, each step of the depth is a step of the splitter
    cases hmark : mark previous c with
    | opening =>
      rw [hmark] at hstep
      obtain rfl := Option.some.inj hstep
      have hdepth : (base : Int) + depth + 1 = base + (depth + 1 : Nat) := by omega
      simp only [addFront, hdepth, hcs, List.cons_append]
    | closing =>
      rw [hmark] at hstep
      cases depth with
      | zero => cases hstep
      | succ depth =>
        obtain rfl := Option.some.inj hstep
        have hdepth : (base : Int) + (depth + 1 : Nat) - 1 = base + depth := by omega
        simp only [addFront, hdepth, hcs, List.cons_append]
    | comma =>
      rw [hmark] at hstep
      obtain ⟨hcomma, hsame⟩ := Option.ite_none_left_eq_some.mp hstep
      obtain rfl := Option.some.inj hsame
      -- the comma is in brackets, so that the part goes on
      have hdepth : ¬((base : Int) + depth = 0) := by
        simp only [Bool.true_and, decide_eq_true_eq] at hcomma
        omega
      simp only [addFront, if_neg hdepth, hcs, List.cons_append]
    | plain =>
      rw [hmark] at hstep
      obtain rfl := Option.some.inj hstep
      simp only [addFront, hcs, List.cons_append]

/-- The parts of a text that was cut out of a pair of brackets end as deep as they begin. They may close
that pair and open another. -/
theorem depthAfter?_partsAtDepth {depth : Nat} {previous : Option Char} {cs : List Char}
    (h : depthAfter? false depth previous cs = some 1) :
    depthAfter? false depth previous (partsAtDepth ',' ((depth : Int) - 1) previous cs).1 = some 1 ∧
      ∀ part ∈ (partsAtDepth ',' ((depth : Int) - 1) previous cs).2,
        depthAfter? false 1 none part = some 1 := by
  induction cs generalizing depth previous with
  | nil => exact ⟨h, nofun⟩
  | cons c cs ih =>
    obtain ⟨between, hstep, hrest⟩ := Option.bind_eq_some_iff.mp h
    have hcs := ih hrest
    -- the first part goes on with the character
    have hfront {p : List Char × List (List Char)}
        (hp : depthAfter? false between (some c) p.1 = some 1 ∧
          ∀ part ∈ p.2, depthAfter? false 1 none part = some 1) :
        depthAfter? false depth previous (addFront c p).1 = some 1 ∧
          ∀ part ∈ (addFront c p).2, depthAfter? false 1 none part = some 1 := by
      refine ⟨?_, hp.2⟩
      rw [addFront, depthAfter?_cons, hstep]
      exact hp.1
    rw [partsAtDepth_cons]
    cases hmark : mark previous c with
    | opening =>
      rw [hmark] at hstep
      obtain rfl := Option.some.inj hstep
      refine hfront ?_
      have hdepth : (depth : Int) - 1 + 1 = (depth + 1 : Nat) - 1 := by omega
      rw [hdepth]
      exact hcs
    | closing =>
      rw [hmark] at hstep
      cases depth with
      | zero => cases hstep
      | succ depth =>
        obtain rfl := Option.some.inj hstep
        refine hfront ?_
        have hdepth : ((depth + 1 : Nat) : Int) - 1 - 1 = depth - 1 := by omega
        rw [hdepth]
        exact hcs
    | comma =>
      rw [hmark] at hstep
      obtain rfl : depth = between := by simpa [Mark.step] using hstep
      by_cases hdepth : (depth : Int) - 1 = 0
      · -- the part ends here, and the next one begins after a comma
        obtain rfl : depth = 1 := by omega
        simp only [if_pos hdepth]
        refine ⟨rfl, List.forall_mem_cons.mpr ⟨?_, hcs.2⟩⟩
        rw [← hcs.1, mark_eq_comma_iff.mp hmark]
        exact depthAfter?_congr (by decide) false 1 _
      · simp only [if_neg hdepth]
        exact hfront hcs
    | plain =>
      rw [hmark] at hstep
      obtain rfl := Option.some.inj hstep
      exact hfront hcs

/-! ## Lists of sealed texts -/

/-- A text is sealed if its brackets are closed and all its commas are in brackets. -/
theorem isSealed_iff {cs : List Char} : isSealed cs = true ↔ depthAfter? true 0 none cs = some 0 := by
  simp [isSealed]

/-- In parentheses a sealed text is not split where it stands at most one bracket too far out. -/
theorem partsAtDepth_group {inside : List Char} (h : isSealed inside = true) (depth : Nat)
    (previous : Option Char) (cs : List Char) :
    partsAtDepth ',' ((depth : Int) - 1) previous ('(' :: (inside ++ ')' :: cs)) =
      ('(' :: (inside ++ ')' :: (partsAtDepth ',' ((depth : Int) - 1) (some ')') cs).1),
        (partsAtDepth ',' ((depth : Int) - 1) (some ')') cs).2) := by
  have hinside : depthAfter? true 0 (some '(') inside = some 0 :=
    (depthAfter?_congr (by decide) true 0 inside).trans (isSealed_iff.mp h)
  have hclose (previous : Option Char) : partsAtDepth ',' ((depth : Int) + (0 : Nat)) previous (')' :: cs) =
      addFront ')' (partsAtDepth ',' ((depth : Int) - 1) (some ')') cs) := by
    rw [partsAtDepth_cons]
    simp [mark]
  have hopen : partsAtDepth ',' ((depth : Int) - 1) previous ('(' :: (inside ++ ')' :: cs)) =
      addFront '(' (partsAtDepth ',' ((depth : Int) + (0 : Nat)) (some '(') (inside ++ ')' :: cs)) := by
    rw [partsAtDepth_cons]
    simp [mark]
  rw [hopen, partsAtDepth_append hinside, hclose]
  rfl

/-- Every bracket in a list of sealed texts is closed. -/
theorem isBalanced_intercalate {css : List (List Char)} (h : ∀ cs ∈ css, isSealed cs = true) :
    isBalanced ([',', ' '].intercalate css) = true := by
  simp only [isBalanced, decide_eq_true_eq]
  induction css with
  | nil => rfl
  | cons first rest ih =>
    obtain ⟨hfirst, hrest⟩ := List.forall_mem_cons.mp h
    have hsealed : depthAfter? false 0 none first = some 0 :=
      Mark.depthAfter?_of_strict (isSealed_iff.mp hfirst) false
    cases rest with
    | nil => simpa using hsealed
    | cons next rest =>
      rw [List.intercalate_cons_cons, List.append_assoc, depthAfter?_append, hsealed, Option.bind_some]
      -- the comma and the blank do not change the depth
      have hcomma : ∀ previous cs, depthAfter? false 0 previous (',' :: ' ' :: cs) =
          depthAfter? false 0 none cs := fun previous cs => by
        rw [depthAfter?_cons, mark_eq_comma_iff.mpr rfl]
        have hblank : [' '].all isPlain = true := rfl
        exact depthAfter?_plain hblank false 0 (by decide) cs
      rw [List.cons_append, List.cons_append, List.nil_append, hcomma]
      exact ih hrest

/-- Of the character before it only matters whether it is a dash. -/
theorem partsAtDepth_congr {previous previous' : Option Char}
    (h : previous = some '-' ↔ previous' = some '-') (depth : Int) (cs : List Char) :
    partsAtDepth ',' depth previous cs = partsAtDepth ',' depth previous' cs := by
  cases cs with
  | nil => rfl
  | cons c cs => rw [partsAtDepth_cons, partsAtDepth_cons, mark_congr h]

/-- A list of sealed texts is split where it was put together. -/
theorem partsAtDepth_intercalate {first : List Char} {rest : List (List Char)}
    (h : ∀ cs ∈ first :: rest, isSealed cs = true) :
    partsAtDepth ',' 0 none ([',', ' '].intercalate (first :: rest)) =
      (first, rest.map (' ' :: ·)) := by
  induction rest generalizing first with
  | nil =>
    have hfirst := partsAtDepth_append (isSealed_iff.mp (h first List.mem_cons_self)) 0 []
    simpa [partsAtDepth] using hfirst
  | cons next rest ih =>
    obtain ⟨hfirst, hnext⟩ := List.forall_mem_cons.mp h
    have hsplit := partsAtDepth_append (isSealed_iff.mp hfirst) 0
      ([',', ' '] ++ [',', ' '].intercalate (next :: rest))
    -- a blank before a text does not change how the text is split
    have hblank : partsAtDepth ',' 0 (some ' ') ([',', ' '].intercalate (next :: rest)) =
        (next, rest.map (' ' :: ·)) :=
      (partsAtDepth_congr (by decide) 0 _).trans (ih hnext)
    have hcomma (previous : Option Char) :
        partsAtDepth ',' 0 previous (',' :: ' ' :: [',', ' '].intercalate (next :: rest)) =
          ([], (next :: rest).map (' ' :: ·)) := by
      have hspace : partsAtDepth ',' 0 (some ',') (' ' :: [',', ' '].intercalate (next :: rest)) =
          (' ' :: next, rest.map (' ' :: ·)) := by
        rw [partsAtDepth_cons, hblank]
        rfl
      rw [partsAtDepth_cons, hspace, mark_eq_comma_iff.mpr rfl]
      rfl
    rw [List.intercalate_cons_cons, List.append_assoc]
    simpa [hcomma] using hsplit

/-- Sealed texts that are not empty can be told from their list. -/
theorem intercalate_injective {as bs : List (List Char)}
    (has : ∀ a ∈ as, a ≠ [] ∧ isSealed a = true) (hbs : ∀ b ∈ bs, b ≠ [] ∧ isSealed b = true)
    (h : [',', ' '].intercalate as = [',', ' '].intercalate bs) : as = bs := by
  have hempty {first : List Char} {rest : List (List Char)} (hfirst : first ≠ []) :
      [',', ' '].intercalate (first :: rest) ≠ [] := by
    cases rest <;> simp [List.intercalate_cons_cons, hfirst]
  cases as with
  | nil =>
    cases bs with
    | nil => rfl
    | cons b bs => exact absurd h.symm (hempty (hbs b List.mem_cons_self).1)
  | cons a as =>
    cases bs with
    | nil => exact absurd h (hempty (has a List.mem_cons_self).1)
    | cons b bs =>
      -- both lists are got back by splitting the text
      have hsplit := (partsAtDepth_intercalate fun cs hcs => (has cs hcs).2).symm.trans
        ((congrArg _ h).trans (partsAtDepth_intercalate fun cs hcs => (hbs cs hcs).2))
      obtain ⟨rfl, htails⟩ := Prod.mk.inj hsplit
      have hcons : (' ' :: · : List Char → List Char).Injective := fun _ _ h => (List.cons.inj h).2
      rw [List.map_inj_right (fun _ _ h => hcons h)] at htails
      rw [htails]

end Generics.Text
