/-!
# Facts about lists

What the modules of the project use of lists with members of any kind. A scanner takes a run of
characters, a search counts what it has not met, a table is searched for a key.
-/

namespace Generics

variable {α β κ : Type}

/-! ## Runs of members -/

/-- What is left after a run does not start with one more member of the run. -/
theorem head?_dropWhile (p : α → Bool) (l : List α) : ∀ a ∈ (l.dropWhile p).head?, p a = false := by
  intro a ha
  have hhead := List.head?_dropWhile_not p l
  rwa [ha] at hhead

/-- A run ends before a list that does not go on with it. -/
theorem takeWhile_append_of_head {p : α → Bool} {rest : List α}
    (hrest : ∀ a ∈ rest.head?, p a = false) (l : List α) :
    (l ++ rest).takeWhile p = l.takeWhile p ∧ (l ++ rest).dropWhile p = l.dropWhile p ++ rest := by
  induction l with
  | nil =>
    cases rest with
    | nil => exact ⟨rfl, rfl⟩
    | cons a rest => simp [hrest a rfl]
  | cons a l ih =>
    cases ha : p a with
    | true => simpa [ha] using ih
    | false => simp [ha]

/-- A run before a list that does not go on with it is taken as a whole. -/
theorem takeWhile_append_of_all {p : α → Bool} {l rest : List α} (hl : l.all p = true)
    (hrest : ∀ a ∈ rest.head?, p a = false) :
    (l ++ rest).takeWhile p = l ∧ (l ++ rest).dropWhile p = rest := by
  obtain ⟨htake, hdrop⟩ := takeWhile_append_of_head hrest []
  have hl := List.all_eq_true.mp hl
  rw [List.takeWhile_append_of_pos hl, List.dropWhile_append_of_pos hl]
  rw [List.nil_append] at htake hdrop
  exact ⟨htake ▸ List.append_nil l, hdrop⟩

/-- The last member of a list that comes after another member, or else that member. -/
theorem getLast?_cons_or (a : α) (l : List α) (before : Option α) :
    (a :: l).getLast?.or before = l.getLast?.or (some a) := by
  rw [List.getLast?_cons]
  cases l.getLast? <;> rfl

/-! ## How many members there are -/

/-- A stronger property that some member lacks holds of fewer members. -/
theorem countP_lt_countP {p q : α → Bool} {l : List α} (hpq : ∀ a ∈ l, p a → q a)
    (hex : ∃ a ∈ l, q a = true ∧ p a = false) : l.countP p < l.countP q := by
  obtain ⟨a, ha, hq, hp⟩ := hex
  obtain ⟨front, back, rfl⟩ := List.append_of_mem ha
  have hfront : front.countP p ≤ front.countP q :=
    List.countP_mono_left fun b hb => hpq b (List.mem_append_left _ hb)
  have hback : back.countP p ≤ back.countP q :=
    List.countP_mono_left fun b hb => hpq b (List.mem_append_right _ (List.mem_cons_of_mem a hb))
  rw [List.countP_append, List.countP_append, List.countP_cons_of_pos hq,
    List.countP_cons_of_neg (Bool.not_eq_true _ ▸ hp)]
  exact Nat.add_lt_add_of_le_of_lt hfront (Nat.lt_succ_of_le hback)

/-- A property that no two members of a list share holds of at most one of them. -/
theorem countP_le_one_of_pairwise {p : α → Bool} {l : List α}
    (h : l.Pairwise fun a b => p a = true → p b = false) : l.countP p ≤ 1 := by
  induction h with
  | nil => exact Nat.zero_le 1
  | @cons a l ha _ ih =>
    cases hp : p a with
    | false => rwa [List.countP_cons_of_neg (by simp [hp])]
    | true =>
      have hnone : l.countP p = 0 :=
        List.countP_eq_zero.mpr fun b hb => by simp [ha b hb hp]
      exact Nat.le_of_eq (by rw [List.countP_cons_of_pos hp, hnone])

/-! ## Repetitions -/

section

variable [BEq α] [LawfulBEq α]

/-- What is left without repetitions has none. -/
theorem nodup_eraseDups (l : List α) : l.eraseDups.Nodup := by
  -- the rest without the first member is shorter
  induction h : l.length using Nat.strongRecOn generalizing l with
  | _ n ih =>
    cases l with
    | nil => simp
    | cons a as =>
      rw [List.eraseDups_cons, List.nodup_cons]
      refine ⟨?_, ih _ ?_ _ rfl⟩
      · simp [List.mem_eraseDups]
      · have := List.length_filter_le (fun b => !b == a) as
        simp only [List.length_cons] at h
        omega

/-- A list with no other members has no more different ones. -/
theorem length_eraseDups_le {l m : List α} (h : ∀ a ∈ l, a ∈ m) :
    l.eraseDups.length ≤ m.eraseDups.length :=
  (nodup_eraseDups l).length_le_of_subset fun a ha =>
    List.mem_eraseDups.mpr (h a (List.mem_eraseDups.mp ha))

/-- A list that lacks a member has fewer different ones. -/
theorem length_eraseDups_lt {l m : List α} (h : ∀ a ∈ l, a ∈ m) {b : α} (hb : b ∈ m)
    (hbl : b ∉ l) : l.eraseDups.length < m.eraseDups.length := by
  have hnodup : (b :: l.eraseDups).Nodup :=
    List.nodup_cons.mpr ⟨fun hmem => hbl (List.mem_eraseDups.mp hmem), nodup_eraseDups l⟩
  refine hnodup.length_le_of_subset fun a ha => List.mem_eraseDups.mpr ?_
  rcases List.mem_cons.mp ha with rfl | ha
  · exact hb
  · exact h a (List.mem_eraseDups.mp ha)

/-- Removing repetitions and filtering can be done in either order. -/
theorem filter_eraseDups (p : α → Bool) (l : List α) :
    l.eraseDups.filter p = (l.filter p).eraseDups := by
  induction hn : l.length using Nat.strongRecOn generalizing l with
  | ind n ih =>
    cases l with
    | nil => rfl
    | cons a l =>
      -- the rest without the first member is shorter
      have hless : (l.filter fun b => !b == a).length < n :=
        hn ▸ Nat.lt_succ_of_le (List.length_filter_le _ _)
      have hrest := ih _ hless (l.filter fun b => !b == a) rfl
      rw [List.eraseDups_cons]
      cases hp : p a with
      | true =>
        rw [List.filter_cons_of_pos hp, List.filter_cons_of_pos hp, List.eraseDups_cons, hrest,
          List.filter_filter, List.filter_filter]
        simp only [Bool.and_comm]
      | false =>
        have hne : ∀ b, (p b && !b == a) = p b := by
          intro b
          by_cases hb : b = a
          · simp [hb, hp]
          · simp [hb]
        rw [List.filter_cons_of_neg (by simp [hp]), List.filter_cons_of_neg (by simp [hp]), hrest,
          List.filter_filter]
        simp only [hne]

end

/-! ## Look-ups -/

section

variable [BEq κ]

/-- Looking up in a table whose entries were changed. -/
theorem lookup_map_snd {γ : Type} (f : β → γ) (k : κ) (l : List (κ × β)) :
    (l.map fun e => (e.1, f e.2)).lookup k = (l.lookup k).map f := by
  induction l with
  | nil => rfl
  | cons e l ih =>
    rw [List.map_cons, List.lookup_cons, List.lookup_cons, ih]
    cases k == e.1 <;> rfl

variable [LawfulBEq κ]

/-- What is found for a key stands in the table. -/
theorem mem_of_lookup {l : List (κ × β)} {k : κ} {b : β} (h : l.lookup k = some b) : (k, b) ∈ l := by
  obtain ⟨front, back, rfl, -⟩ := List.lookup_eq_some_iff.mp h
  exact List.mem_append_right front List.mem_cons_self

/-- In a table that has no key twice, every entry is found. -/
theorem lookup_of_mem {l : List (κ × β)} (hl : (l.map Prod.fst).Nodup) {e : κ × β} (he : e ∈ l) :
    l.lookup e.1 = some e.2 := by
  obtain ⟨front, back, rfl⟩ := List.append_of_mem he
  refine List.lookup_eq_some_iff.mpr ⟨front, back, rfl, fun d hd => ?_⟩
  rw [List.map_append, List.map_cons, List.nodup_append] at hl
  simpa using Ne.symm (hl.2.2 d.1 (List.mem_map_of_mem hd) e.1 List.mem_cons_self)

/-- An entry for a key that had none changes nothing for the other keys. -/
theorem lookup_cons_of_lookup {l : List (κ × β)} {k j : κ} {b c : β} (h : l.lookup k = some b)
    (hj : l.lookup j = none) : ((j, c) :: l).lookup k = some b := by
  have hne : (k == j) = false := by
    rw [beq_eq_false_iff_ne]
    rintro rfl
    rw [hj] at h
    cases h
  rwa [List.lookup_cons, hne]

/-- Taking out entries of other keys does not change what is found for a key. -/
theorem lookup_filter_of_pos {p : κ → Bool} {k : κ} (hk : p k = true) (l : List (κ × β)) :
    (l.filter fun e => p e.1).lookup k = l.lookup k := by
  induction l with
  | nil => rfl
  | cons e l ih =>
    by_cases he : p e.1 = true
    · rw [List.filter_cons_of_pos (by simpa using he), List.lookup_cons, List.lookup_cons, ih]
    · have hne : (k == e.1) = false := by
        rw [beq_eq_false_iff_ne]
        rintro rfl
        exact he hk
      rw [List.filter_cons_of_neg (by simpa using he), List.lookup_cons, hne, ih]

end

end Generics
