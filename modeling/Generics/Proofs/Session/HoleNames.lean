import Generics.Proofs.Ty.Atoms
import Generics.Proofs.Ty.Respelling
import Generics.Session.Holes

/-!
# Names of holes in a text

Holes are named in the characters of an annotation, before it is read. An underscore with neither a part
of a word nor a quote next to it gets a number. Most of them are names of their own, but such an
underscore can also be a segment of a longer name, or a name with arguments.

A number is put behind an underscore and nowhere else, so the text with its holes named is split into the
same tokens with numbers in their names. A name right behind digits is the exception. It looks different
to the scanner, which starts a token there, and to the search for holes, which sees a word go on. No type
has such a name in it, and so it does not matter what becomes of it.

## Main results

* `Hole.nameChars_eq_self_iff`: the texts in which nothing is named;
* `Hole.nameFrom_eq_iff`: words without an underscore are kept and not made;
* `Hole.exists_scan_nameChars`: the tokens of a text with its holes named.
-/

namespace Generics

open Text

/-- The token is neither a name nor digits. -/
def Token.isMark : Token → Bool
  | .sym _ | .region _ | .arrow => true
  | .ident _ | .number _ | .var _ => false

namespace Hole

/-! ## Characters -/

/-- A word or a region goes on from the character before. -/
def Glued (before : Option Char) : Prop := ∃ c ∈ before, isIdentChar c = true ∨ c = '\''

/-- An underscore that goes on from a word or a region is no hole. -/
theorem standsAlone_of_glued {before : Option Char} (h : Glued before) (after : Option Char) :
    standsAlone before after = false := by
  obtain ⟨c, rfl, hc⟩ := h
  rcases hc with hc | rfl
  · simp [standsAlone, hc]
  · simp [standsAlone]

/-- What does not go on from the character before does not depend on it. -/
theorem standsAlone_of_not_glued {before : Option Char} (h : ¬ Glued before) (after : Option Char) :
    standsAlone before after = standsAlone none after := by
  cases before with
  | none => rfl
  | some c =>
    have hc : isIdentChar c = false ∧ c ≠ '\'' := by
      refine ⟨Bool.eq_false_iff.mpr fun hident => h ⟨c, rfl, .inl hident⟩, ?_⟩
      rintro rfl
      exact h ⟨_, rfl, .inr rfl⟩
    simp [standsAlone, hc]

/-- A hole gets the next name. -/
theorem nameChars_hole {before : Option Char} {n : Nat} {cs : List Char}
    (h : standsAlone before cs.head? = true) :
    nameChars before n ('_' :: cs) =
      ((name n).toList ++ (nameChars (some '_') (n + 1) cs).1,
        (nameChars (some '_') (n + 1) cs).2) := by
  rw [nameChars, h]
  rfl

/-- Every other character is kept. -/
theorem nameChars_other {before : Option Char} {n : Nat} {c : Char} {cs : List Char}
    (h : ¬ (c = '_' ∧ standsAlone before cs.head? = true)) :
    nameChars before n (c :: cs) =
      (c :: (nameChars (some c) n cs).1, (nameChars (some c) n cs).2) := by
  rw [nameChars, if_neg (by simpa using h)]

/-- The number of a hole comes behind its underscore. -/
theorem head?_nameChars (before : Option Char) (n : Nat) (cs : List Char) :
    (nameChars before n cs).1.head? = cs.head? := by
  cases cs with
  | nil => rfl
  | cons c cs =>
    by_cases hole : c = '_' ∧ standsAlone before cs.head? = true
    · obtain ⟨rfl, halone⟩ := hole
      rw [nameChars_hole halone, name, String.toList_ofList]
      rfl
    · rw [nameChars_other hole]
      rfl

/-- A text that starts no word can be cut off. -/
theorem nameChars_append {rest : List Char} (hrest : ∀ c ∈ rest.head?, isIdentChar c = false)
    (before : Option Char) (n : Nat) (cs : List Char) :
    nameChars before n (cs ++ rest) =
      ((nameChars before n cs).1 ++
          (nameChars (cs.getLast?.or before) (nameChars before n cs).2 rest).1,
        (nameChars (cs.getLast?.or before) (nameChars before n cs).2 rest).2) := by
  induction cs generalizing before n with
  | nil => rfl
  | cons c cs ih =>
    -- whether a hole ends at `rest` does not depend on it
    have hafter : standsAlone before (cs ++ rest).head? = standsAlone before cs.head? := by
      cases cs with
      | cons d cs => rfl
      | nil =>
        cases rest with
        | nil => rfl
        | cons d rest => simp [standsAlone, hrest d rfl]
    rw [List.cons_append, getLast?_cons_or]
    by_cases hole : c = '_' ∧ standsAlone before cs.head? = true
    · obtain ⟨rfl, halone⟩ := hole
      rw [nameChars_hole (hafter ▸ halone), nameChars_hole halone, ih, List.append_assoc]
    · rw [nameChars_other (hafter ▸ hole), nameChars_other hole, ih, List.cons_append]

/-- Some underscore of the text is a hole when the text comes after the given character. -/
def HasLone (before : Option Char) (cs : List Char) : Prop :=
  ∃ front back, cs = front ++ '_' :: back ∧ standsAlone (front.getLast?.or before) back.head? = true

/-- The first hole is the first character or comes later. -/
theorem hasLone_cons {before : Option Char} {c : Char} {cs : List Char} :
    HasLone before (c :: cs) ↔
      (c = '_' ∧ standsAlone before cs.head? = true) ∨ HasLone (some c) cs := by
  constructor
  · rintro ⟨front, back, heq, halone⟩
    cases front with
    | nil =>
      obtain ⟨rfl, rfl⟩ := List.cons.inj heq
      exact .inl ⟨rfl, halone⟩
    | cons d front =>
      obtain ⟨rfl, rfl⟩ := List.cons.inj heq
      exact .inr ⟨front, back, rfl, getLast?_cons_or c front before ▸ halone⟩
  · rintro (⟨rfl, halone⟩ | ⟨front, back, rfl, halone⟩)
    · exact ⟨[], cs, rfl, halone⟩
    · exact ⟨c :: front, back, rfl, (getLast?_cons_or c front before).symm ▸ halone⟩

/-- A text without holes is kept. -/
theorem nameChars_of_not_hasLone {before : Option Char} {cs : List Char}
    (h : ¬ HasLone before cs) (n : Nat) : nameChars before n cs = (cs, n) := by
  induction cs generalizing before with
  | nil => rfl
  | cons c cs ih =>
    rw [hasLone_cons, not_or] at h
    rw [nameChars_other h.1, ih h.2]

/-- Nothing is taken out of a text. -/
theorem sublist_nameChars (before : Option Char) (n : Nat) (cs : List Char) :
    cs.Sublist (nameChars before n cs).1 := by
  induction cs generalizing before n with
  | nil => exact .slnil
  | cons c cs ih =>
    by_cases hole : c = '_' ∧ standsAlone before cs.head? = true
    · obtain ⟨rfl, halone⟩ := hole
      rw [nameChars_hole halone, name, String.toList_ofList]
      exact .cons_cons '_' (List.sublist_append_of_sublist_right (ih (some '_') (n + 1)))
    · rw [nameChars_other hole]
      exact .cons_cons c (ih (some c) n)

/-- A text with a hole gets longer. -/
theorem length_nameChars_lt {before : Option Char} {cs : List Char} (h : HasLone before cs) (n : Nat) :
    cs.length < (nameChars before n cs).1.length := by
  induction cs generalizing before n with
  | nil =>
    obtain ⟨front, back, heq, -⟩ := h
    simp at heq
  | cons c cs ih =>
    by_cases hole : c = '_' ∧ standsAlone before cs.head? = true
    · obtain ⟨rfl, halone⟩ := hole
      have hlater := (sublist_nameChars (some '_') (n + 1) cs).length_le
      have hdigits := List.length_pos_of_ne_nil (decimal_ne_nil n)
      rw [nameChars_hole halone]
      simp only [name, String.toList_ofList, List.length_cons, List.length_append]
      omega
    · have hlater := ih ((hasLone_cons.mp h).resolve_left hole) n
      rw [nameChars_other hole]
      exact Nat.succ_lt_succ hlater

/-- Texts in which nothing is named. -/
theorem nameChars_eq_self_iff {before : Option Char} {n : Nat} {cs : List Char} :
    (nameChars before n cs).1 = cs ↔ ¬ HasLone before cs := by
  constructor
  · intro heq h
    have hlt := length_nameChars_lt h n
    rw [heq] at hlt
    exact Nat.lt_irrefl _ hlt
  · intro h
    rw [nameChars_of_not_hasLone h]

theorem mem_of_hasLone {before : Option Char} {cs : List Char} (h : HasLone before cs) : '_' ∈ cs := by
  obtain ⟨front, back, rfl, -⟩ := h
  simp

/-- What goes on from a word has no hole. -/
theorem not_hasLone_of_glued {before : Option Char} (h : Glued before) {cs : List Char}
    (hcs : cs.all isIdentChar = true) : ¬ HasLone before cs := by
  rintro ⟨front, back, rfl, halone⟩
  have hglued : Glued (front.getLast?.or before) := by
    cases hlast : front.getLast? with
    | none => exact h
    | some c =>
      have hmem : c ∈ front ++ '_' :: back :=
        List.mem_append_left _ (List.mem_of_getLast? hlast)
      exact ⟨c, rfl, .inl (List.all_eq_true.mp hcs c hmem)⟩
  rw [standsAlone_of_glued hglued] at halone
  cases halone

/-- Nothing goes on from a character that is in no word and no quote. -/
theorem not_glued {c : Char} (hname : isIdentChar c = false) (hquote : c ≠ '\'') :
    ¬ Glued (some c) := by
  rintro ⟨d, ⟨⟩, hident | hd⟩
  · rw [hname] at hident
    cases hident
  · exact hquote hd

/-- A text without underscores is kept. -/
theorem nameChars_plain {cs : List Char} (hcs : '_' ∉ cs) (rest : List Char) (before : Option Char)
    (n : Nat) :
    nameChars before n (cs ++ rest) =
      (cs ++ (nameChars (cs.getLast?.or before) n rest).1,
        (nameChars (cs.getLast?.or before) n rest).2) := by
  induction cs generalizing before with
  | nil => rfl
  | cons c cs ih =>
    rw [List.mem_cons, not_or] at hcs
    rw [List.cons_append, nameChars_other fun hole => hcs.1 hole.1.symm, ih hcs.2,
      getLast?_cons_or]
    rfl

/-- A text that does not go on from the character before does not depend on it. -/
theorem nameChars_of_not_glued {before : Option Char} (h : ¬ Glued before) (n : Nat)
    (cs : List Char) : nameChars before n cs = nameChars none n cs := by
  cases cs with
  | nil => rfl
  | cons c cs => rw [nameChars, nameChars, standsAlone_of_not_glued h]

/-! ## Tokens -/

/-- Names the holes of a name from the number `n` on. -/
def nameFrom (n : Nat) (word : String) : String × Nat :=
  (String.ofList (nameChars none n word.toList).1, (nameChars none n word.toList).2)

theorem nameFrom_ofList (n : Nat) (cs : List Char) :
    nameFrom n (String.ofList cs) =
      (String.ofList (nameChars none n cs).1, (nameChars none n cs).2) := by
  rw [nameFrom, String.toList_ofList]

/-- Some segment of the name is an underscore. -/
def IsLone (word : String) : Prop := HasLone none word.toList

/-- A name without a lone underscore is kept. -/
theorem nameFrom_of_not_isLone {word : String} (h : ¬ IsLone word) (n : Nat) :
    nameFrom n word = (word, n) := by
  rw [nameFrom, nameChars_of_not_hasLone h, String.ofList_toList]

/-- Only a name without a lone underscore is kept. -/
theorem nameFrom_eq_self_iff {n : Nat} {word : String} :
    (nameFrom n word).1 = word ↔ ¬ IsLone word := by
  rw [nameFrom, IsLone, ← nameChars_eq_self_iff, ← String.toList_inj, String.toList_ofList]

instance : DecidablePred IsLone := fun _ =>
  decidable_of_iff _ (nameFrom_eq_self_iff (n := 0)).not_left

/-- A lone underscore becomes the next name. -/
theorem nameFrom_underscore (n : Nat) : nameFrom n "_" = (name n, n + 1) := by
  show (String.ofList ((name n).toList ++ []), n + 1) = _
  rw [List.append_nil, String.ofList_toList]

/-- A name without underscores is kept. -/
theorem nameFrom_of_notMem {word : String} (h : '_' ∉ word.toList) (n : Nat) :
    nameFrom n word = (word, n) :=
  nameFrom_of_not_isLone (fun hlone => h (mem_of_hasLone hlone)) n

/-- Words without an underscore are kept and not made. -/
theorem nameFrom_eq_iff {word : String} (h : '_' ∉ word.toList) {n : Nat} {other : String} :
    (nameFrom n other).1 = word ↔ other = word := by
  by_cases hlone : IsLone other
  · refine iff_of_false ?_ ?_
    · rintro rfl
      rw [nameFrom, String.toList_ofList] at h
      exact h ((sublist_nameChars none n other.toList).subset (mem_of_hasLone hlone))
    · rintro rfl
      exact h (mem_of_hasLone hlone)
  · rw [nameFrom_of_not_isLone hlone]

open Token (isNameChar isNameTail isIdent Stops)

/-- Characters of a name can be put in front of the rest of a name. -/
theorem isNameTail_append {cs rest : List Char} (hcs : cs.all isNameChar = true)
    (hrest : isNameTail rest = true) : isNameTail (cs ++ rest) = true := by
  induction cs with
  | nil => exact hrest
  | cons c cs ih =>
    rw [List.all_cons, Bool.and_eq_true] at hcs
    rw [List.cons_append, isNameTail]
    · rw [hcs.1, ih hcs.2]
      rfl
    · rintro _ rfl
      rw [(Token.kinds_of_mark (by simp)).2.2.2] at hcs
      cases hcs.1

theorem all_isNameChar_name (n : Nat) : (name n).toList.all isNameChar = true := by
  rw [name, String.toList_ofList, List.all_cons, Bool.and_eq_true]
  refine ⟨rfl, List.all_eq_true.mpr fun c hc => ?_⟩
  simp [isNameChar, (Token.kinds_of_isDigit (isDigit_of_mem_decimal hc)).1]

/-- A name with its holes named is a name. -/
theorem isNameTail_nameChars {cs : List Char} (h : isNameTail cs = true) (before : Option Char)
    (n : Nat) : isNameTail (nameChars before n cs).1 = true := by
  fun_induction isNameTail cs generalizing before n with
  | case1 => rfl
  | case2 cs ih =>
    rw [nameChars_other (by simp), nameChars_other (by simp)]
    exact ih h _ n
  | case3 c cs hpath ih =>
    rw [Bool.and_eq_true] at h
    by_cases hole : c = '_' ∧ standsAlone before cs.head? = true
    · obtain ⟨rfl, halone⟩ := hole
      rw [nameChars_hole halone]
      exact isNameTail_append (all_isNameChar_name n) (ih h.2 _ _)
    · rw [nameChars_other hole]
      show isNameTail ([c] ++ _) = true
      exact isNameTail_append (by simp [h.1]) (ih h.2 _ _)

/-- A name whose holes are named is still a name. -/
theorem isIdent_nameChars {cs : List Char} (h : isIdent cs = true) (before : Option Char) (n : Nat) :
    isIdent (nameChars before n cs).1 = true := by
  cases cs with
  | nil => cases h
  | cons c cs =>
    rw [isIdent, Bool.and_eq_true] at h
    by_cases hole : c = '_' ∧ standsAlone before cs.head? = true
    · obtain ⟨rfl, halone⟩ := hole
      have hdigits := all_isNameChar_name n
      rw [name, String.toList_ofList, List.all_cons, Bool.and_eq_true] at hdigits
      rw [nameChars_hole halone, name, String.toList_ofList]
      exact isNameTail_append hdigits.2 (isNameTail_nameChars h.2 _ _)
    · rw [nameChars_other hole, isIdent, h.1, isNameTail_nameChars h.2]
      rfl

/-- The second tokens are the first ones with the holes in their names named from the number `n` on, and
`m` is the number of the next hole. A name that goes on from the digits before it, which is no part of
any type, may become any name. -/
inductive Numbers : (apart : Bool) → (n : Nat) → List Token → List Token → (m : Nat) → Prop
  | nil (apart : Bool) (n : Nat) : Numbers apart n [] [] n
  | ident (word : String) {n m : Nat} {ts us : List Token}
      (h : Numbers true (nameFrom n word).2 ts us m) :
      Numbers true n (.ident word :: ts) (.ident (nameFrom n word).1 :: us) m
  | stuck (word word' : String) {n n' m : Nat} {ts us : List Token} (h : Numbers true n' ts us m) :
      Numbers false n (.ident word :: ts) (.ident word' :: us) m
  | number (apart : Bool) (digits : String) {n m : Nat} {ts us : List Token}
      (h : Numbers false n ts us m) :
      Numbers apart n (.number digits :: ts) (.number digits :: us) m
  | var (apart : Bool) (digits : String) {n m : Nat} {ts us : List Token}
      (h : Numbers false n ts us m) : Numbers apart n (.var digits :: ts) (.var digits :: us) m
  | mark (apart : Bool) {tok : Token} (htok : tok.isMark = true) {n m : Nat} {ts us : List Token}
      (h : Numbers true n ts us m) : Numbers apart n (tok :: ts) (tok :: us) m

/-- A name may also be taken for one that goes on from what is before it. -/
theorem Numbers.of_apart {n m : Nat} {ts us : List Token} (h : Numbers true n ts us m)
    (apart : Bool) : Numbers apart n ts us m := by
  cases apart with
  | true => exact h
  | false =>
    cases h with
    | nil => exact .nil false n
    | ident word h => exact .stuck word _ h
    | number _ digits h => exact .number false digits h
    | var _ digits h => exact .var false digits h
    | mark _ htok h => exact .mark false htok h

/-- A text that is split into tokens does not start with a colon, so it goes on with no name. -/
theorem stops_of_scan {cs : List Char} {toks : List Token} (h : Token.scan cs = .ok toks)
    (hcs : ∀ c ∈ cs.head?, isNameChar c = false) : Stops cs := by
  intro c hc
  refine ⟨hcs c hc, ?_⟩
  rintro rfl
  obtain ⟨cs, rfl⟩ := List.head?_eq_some_iff.mp hc
  have hkinds := Token.kinds_of_mark (c := ':') (by simp)
  rw [Token.scan] at h
  simp [hkinds, Token.symbols] at h

/-- What comes behind a name does not go on with it. -/
theorem head?_spanName (cs : List Char) : ∀ c ∈ (Token.spanName cs).2.head?, isNameChar c = false := by
  fun_induction Token.spanName cs with
  | case1 => simp
  | case2 cs ih => exact ih
  | case3 c cs hpath hname ih => exact ih
  | case4 c cs hpath hname => simpa using hname

/-- What comes behind a run of characters does not join it when holes are named. -/
theorem takeWhile_append_nameChars (p : Char → Bool) (before : Option Char) (n : Nat)
    (cs : List Char) :
    (cs.takeWhile p ++ (nameChars before n (cs.dropWhile p)).1).takeWhile p = cs.takeWhile p ∧
      (cs.takeWhile p ++ (nameChars before n (cs.dropWhile p)).1).dropWhile p =
        (nameChars before n (cs.dropWhile p)).1 := by
  refine takeWhile_append_of_all List.all_takeWhile ?_
  rw [head?_nameChars]
  exact head?_dropWhile p cs

/-- Digits are kept, with what is in front of them. -/
theorem nameChars_digits {c : Char} (hc : c ≠ '_') (before : Option Char) (n : Nat) (cs : List Char) :
    ∃ last, nameChars before n (c :: cs) =
      (c :: (cs.takeWhile isDigit ++ (nameChars last n (cs.dropWhile isDigit)).1),
        (nameChars last n (cs.dropWhile isDigit)).2) := by
  have hall : (cs.takeWhile isDigit).all isDigit = true := List.all_takeWhile
  have hplain : '_' ∉ cs.takeWhile isDigit := fun hmem =>
    absurd (List.all_eq_true.mp hall '_' hmem) (by decide)
  have hsplit := nameChars_plain hplain (cs.dropWhile isDigit) (some c) n
  rw [List.takeWhile_append_dropWhile] at hsplit
  exact ⟨_, by rw [nameChars_other fun hole => hc hole.1, hsplit]⟩

/-- A region is kept: all of its underscores go on from its quote. -/
theorem nameChars_region (before : Option Char) (n : Nat) (cs : List Char) :
    ∃ last, nameChars before n ('\'' :: cs) =
      ('\'' :: (cs.takeWhile isNameChar ++ (nameChars last n (cs.dropWhile isNameChar)).1),
        (nameChars last n (cs.dropWhile isNameChar)).2) := by
  have hword : ¬ HasLone (some '\'') (cs.takeWhile isNameChar) :=
    not_hasLone_of_glued ⟨_, rfl, .inr rfl⟩ List.all_takeWhile
  have hsplit := nameChars_append (head?_dropWhile isNameChar cs) (some '\'') n
    (cs.takeWhile isNameChar)
  rw [List.takeWhile_append_dropWhile, nameChars_of_not_hasLone hword] at hsplit
  exact ⟨_, by rw [nameChars_other (by simp), hsplit]⟩

/-- A name that is apart from what is before it has the same holes as at the front of a text. -/
theorem Numbers.word {apart : Bool} {before : Option Char} (hapart : apart = true → ¬ Glued before)
    {n m : Nat} {cs : List Char} {ts us : List Token}
    (h : Numbers true (nameChars before n cs).2 ts us m) :
    Numbers apart n (.ident (String.ofList cs) :: ts)
      (.ident (String.ofList (nameChars before n cs).1) :: us) m := by
  cases apart with
  | true =>
    rw [nameChars_of_not_glued (hapart rfl)] at h ⊢
    have hident := Numbers.ident (n := n) (String.ofList cs) (by rw [nameFrom_ofList]; exact h)
    rwa [nameFrom_ofList] at hident
  | false => exact .stuck _ _ h

open Token in
/-- The text with its holes named is split into the same tokens with their holes named. -/
theorem exists_scan_nameChars {cs : List Char} {toks : List Token} (h : scan cs = .ok toks)
    (before : Option Char) (n : Nat) (apart : Bool)
    (hapart : apart = true → ¬ Glued before ∨ ∀ c ∈ cs.head?, isNameChar c = false) :
    ∃ toks', scan (nameChars before n cs).1 = .ok toks' ∧
      Numbers apart n toks toks' (nameChars before n cs).2 := by
  -- token by token: each leaves a text behind it that is named on its own
  fun_induction scan cs generalizing toks before n apart with
  | case1 =>
    obtain rfl := Except.ok.inj h
    exact ⟨[], by rw [nameChars, scan], .nil apart n⟩
  | case2 c cs hblank ih =>
    have hname : isNameChar c = false :=
      Bool.eq_false_iff.mpr fun hname => absurd (isBlank_of_isNameChar hname) (by simp [hblank])
    have hquote : c ≠ '\'' := by
      rintro rfl
      exact absurd hblank (by decide)
    obtain ⟨toks', hscan, hnumbers⟩ := ih h (some c) n true fun _ => .inl (not_glued hname hquote)
    rw [nameChars_other fun hole => by simp [hole.1, isNameChar] at hname, scan, if_pos hblank]
    exact ⟨toks', hscan, hnumbers.of_apart apart⟩
  | case3 c cs hblank hname ih =>
    obtain ⟨rest, hrest, rfl⟩ := exists_of_cons_eq_ok h
    have hword : isIdent (c :: (spanName cs).1) = true := by
      rw [isIdent, hname, isNameTail_spanName]
      rfl
    have hcs : c :: cs = (c :: (spanName cs).1) ++ (spanName cs).2 := by
      rw [List.cons_append, spanName_fst_append_snd]
    rw [hcs, nameChars_append (head?_spanName cs)]
    obtain ⟨rest', hrest', hnumbers⟩ := ih hrest ((c :: (spanName cs).1).getLast?.or before)
      (nameChars before n (c :: (spanName cs).1)).2 true fun _ => .inr (head?_spanName cs)
    have hstops := stops_of_scan hrest' (by rw [head?_nameChars]; exact head?_spanName cs)
    have hspells := spells_ident (String.ofList (nameChars before n (c :: (spanName cs).1)).1)
      (by rw [String.toList_ofList]; exact isIdent_nameChars hword before n) _ hstops
    rw [String.toList_ofList, hrest'] at hspells
    -- the text starts with a part of a word, so only the character before it can keep the name apart
    have hstart : isNameChar c = true := by
      rw [isNameChar, Bool.or_eq_true]
      exact .inl hname
    refine ⟨_, hspells, .word (fun h => (hapart h).resolve_right fun hfirst => ?_) hnumbers⟩
    rw [hfirst c rfl] at hstart
    cases hstart
  | case4 c cs hempty => cases h
  | case5 cs hempty hblank hname ih =>
    obtain ⟨rest, hrest, rfl⟩ := exists_of_cons_eq_ok h
    obtain ⟨last, hsplit⟩ := nameChars_region before n cs
    obtain ⟨rest', hrest', hnumbers⟩ := ih hrest last n true fun _ => .inr (head?_dropWhile _ cs)
    obtain ⟨htake, hdrop⟩ := takeWhile_append_nameChars isNameChar last n cs
    rw [hsplit]
    refine ⟨.region _ :: rest', ?_, .mark apart rfl hnumbers⟩
    rw [scan, if_neg hblank, if_neg hname, if_pos rfl, htake, hdrop, if_neg hempty, hrest']
    rfl
  | case6 c cs hblank hname hquote hdigit ih =>
    obtain ⟨rest, hrest, rfl⟩ := exists_of_cons_eq_ok h
    have hc : c ≠ '_' := by
      rintro rfl
      exact hname rfl
    obtain ⟨last, hsplit⟩ := nameChars_digits hc before n cs
    -- a name may go on from the digits
    obtain ⟨rest', hrest', hnumbers⟩ := ih hrest last n false (by rintro ⟨⟩)
    obtain ⟨htake, hdrop⟩ := takeWhile_append_nameChars isDigit last n cs
    rw [hsplit]
    refine ⟨.number _ :: rest', ?_, .number apart _ hnumbers⟩
    rw [scan, if_neg hblank, if_neg hname, if_neg hquote, if_pos hdigit, htake, hdrop, hrest']
    rfl
  | case7 => cases h
  | case8 cs hempty hblank hname hquote hdigit ih =>
    obtain ⟨rest, hrest, rfl⟩ := exists_of_cons_eq_ok h
    obtain ⟨last, hsplit⟩ := nameChars_digits (show '?' ≠ '_' by decide) before n cs
    obtain ⟨rest', hrest', hnumbers⟩ := ih hrest last n false (by rintro ⟨⟩)
    obtain ⟨htake, hdrop⟩ := takeWhile_append_nameChars isDigit last n cs
    rw [hsplit]
    refine ⟨.var _ :: rest', ?_, .var apart _ hnumbers⟩
    rw [scan, if_neg hblank, if_neg hname, if_neg hquote, if_neg hdigit, if_pos rfl, htake, hdrop,
      if_neg hempty, hrest']
    rfl
  | case9 c cs hblank hname hquote hdigit hvar harrow ih =>
    obtain ⟨rest, hrest, rfl⟩ := exists_of_cons_eq_ok h
    obtain ⟨rfl, hhead⟩ := harrow
    obtain ⟨after, rfl⟩ := List.head?_eq_some_iff.mp hhead
    obtain ⟨rest', hrest', hnumbers⟩ := ih hrest (some '>') n true fun _ =>
      .inl (not_glued (by decide +kernel) (by decide))
    rw [List.tail_cons] at hrest' hnumbers
    rw [nameChars_other (by simp), nameChars_other (by simp)]
    refine ⟨.arrow :: rest', ?_, .mark apart rfl hnumbers⟩
    rw [scan, if_neg hblank, if_neg hname, if_neg hquote, if_neg hdigit, if_neg hvar,
      if_pos ⟨rfl, rfl⟩, List.tail_cons, hrest']
    rfl
  | case10 c cs hblank hname hquote hdigit hvar harrow hsym ih =>
    obtain ⟨rest, hrest, rfl⟩ := exists_of_cons_eq_ok h
    have hmem := List.contains_iff_mem.mp hsym
    obtain ⟨-, -, -, hident, -⟩ := kinds_of_mem_symbols hmem
    obtain ⟨rest', hrest', hnumbers⟩ := ih hrest (some c) n true fun _ => .inl (not_glued hident hquote)
    rw [nameChars_other fun hole => by simp [hole.1, isNameChar] at hident]
    refine ⟨.sym c :: rest', ?_, .mark apart rfl hnumbers⟩
    rw [scan_sym hmem, hrest']
    rfl
  | case11 => cases h

namespace Numbers

variable {apart : Bool} {n m : Nat} {ts us : List Token}

/-- A mark is kept. -/
theorem exists_mark {tok : Token} (h : Numbers apart n (tok :: ts) us m) (htok : tok.isMark = true) :
    ∃ us', us = tok :: us' ∧ Numbers true n ts us' m := by
  cases h with
  | mark _ _ h => exact ⟨_, rfl, h⟩
  | _ => cases htok

/-- A name has its holes named. -/
theorem exists_ident {word : String} (h : Numbers true n (.ident word :: ts) us m) :
    ∃ us', us = .ident (nameFrom n word).1 :: us' ∧ Numbers true (nameFrom n word).2 ts us' m := by
  cases h with
  | ident _ h => exact ⟨_, rfl, h⟩
  | mark _ htok => cases htok

/-- Words without an underscore are kept. -/
theorem exists_word {word : String} (hword : '_' ∉ word.toList)
    (h : Numbers true n (.ident word :: ts) us m) :
    ∃ us', us = .ident word :: us' ∧ Numbers true n ts us' m := by
  have hident := h.exists_ident
  rwa [nameFrom_of_notMem hword] at hident

/-- The same marks come first. -/
theorem head?_eq_iff (h : Numbers apart n ts us m) {tok : Token} (htok : tok.isMark = true) :
    us.head? = some tok ↔ ts.head? = some tok := by
  cases h with
  | mark => rfl
  | nil => rfl
  | _ =>
    refine iff_of_false ?_ ?_ <;>
    · rintro ⟨⟩
      cases htok

/-- The same words without an underscore come first. -/
theorem startsWith_eq {word : String} (hword : '_' ∉ word.toList) (h : Numbers true n ts us m) :
    Ty.startsWith word us = Ty.startsWith word ts := by
  cases h with
  | ident other h => exact decide_eq_decide.mpr (nameFrom_eq_iff hword)
  | mark _ htok h =>
    rename_i tok _ _
    cases tok <;> rfl
  | _ => rfl

/-- After such a word the tokens still correspond. -/
theorem afterWord {word : String} (hword : '_' ∉ word.toList) (h : Numbers true n ts us m) :
    Numbers true n (Ty.afterWord word ts) (Ty.afterWord word us) m := by
  rw [Ty.afterWord, Ty.afterWord, h.startsWith_eq hword]
  by_cases hstarts : Ty.startsWith word ts = true
  · obtain ⟨ts', rfl⟩ := Ty.exists_of_startsWith hstarts
    rw [if_pos hstarts, if_pos hstarts]
    obtain ⟨us', rfl, h'⟩ := h.exists_word hword
    exact h'
  · rw [if_neg hstarts, if_neg hstarts]
    exact h

/-- Regions are kept, and the tokens after them still correspond. -/
theorem region (h : Numbers true n ts us m) :
    Ty.regionAt us = Ty.regionAt ts ∧ Numbers true n (Ty.afterRegion ts) (Ty.afterRegion us) m := by
  cases h with
  | nil => exact ⟨rfl, .nil true n⟩
  | ident word h => exact ⟨rfl, .ident word h⟩
  | number _ digits h => exact ⟨rfl, .number true digits h⟩
  | var _ digits h => exact ⟨rfl, .var true digits h⟩
  | @mark _ tok htok _ _ ts us h =>
    cases tok with
    | region name => exact ⟨rfl, h⟩
    | sym c => exact ⟨rfl, .mark true rfl h⟩
    | arrow => exact ⟨rfl, .mark true rfl h⟩
    | _ => cases htok

end Numbers

end Hole

end Generics
