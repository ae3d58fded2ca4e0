import Generics.Proofs.Ty.Regrouping
import Mathlib.Data.List.DropRight

/-!
# Types written otherwise in parentheses

Two texts may differ only in how types in parentheses are written. They are split into tokens that differ
in the same way, so they stand for the same type. Their brackets and commas stand equally deep, so lists in
them are split at the same commas.

## Main results

* `Token.scan_append`: one text after another is split into the tokens of both;
* `Token.scan_trimChars`: blanks at the ends of a text do not matter;
* `Ty.Respelled.denotes`: texts that differ only in how types in parentheses are written stand for the
  same type;
* `Ty.Respelled.depthAfter?_eq`, `Ty.Respelled.partsAtDepth`: brackets and commas in such texts.
-/

namespace Generics

open Text

/-! ## The scanner -/

namespace Token

/-- A name ends before a text that stops it. -/
theorem Stops.spanName_append {rest : List Char} (hrest : Stops rest) (cs : List Char) :
    Token.spanName (cs ++ rest) = ((Token.spanName cs).1, (Token.spanName cs).2 ++ rest) := by
  fun_induction Token.spanName cs with
  | case1 => exact hrest.spanName
  | case2 cs ih => simp [Token.spanName, ih]
  | case3 c cs hpath hname ih =>
    -- a single colon ends a name
    have hc : c ≠ ':' := by
      rintro rfl
      rw [(kinds_of_mark (by simp)).2.2.2] at hname
      cases hname
    rw [List.cons_append, Token.spanName]
    · simp [hname, ih]
    · intro _ hcolon
      exact absurd hcolon hc
  | case4 c cs hpath hname =>
    rw [List.cons_append, Token.spanName]
    · simp [hname]
    · rintro cs' rfl hcs'
      cases cs with
      | nil => exact (hrest ':' (by simp_all)).2 rfl
      | cons d cs =>
        obtain ⟨rfl, -⟩ := List.cons.inj hcs'
        exact hpath cs rfl rfl

/-- One text after another that stops the last token. A dash at the end would make an arrow of a `>`
behind it. -/
theorem scan_append {rest : List Char} (hrest : Stops rest) (cs : List Char)
    (hdash : (∃ toks, scan cs = .ok toks) ∨ rest.head? ≠ some '>') :
    scan (cs ++ rest) = (do let toks ← scan cs; (toks ++ ·) <$> scan rest) := by
  -- a token in front of those that the rest of the first text is split into
  have hcons {tok : Token} {after : List Char}
      (ih : ((∃ toks, scan after = .ok toks) ∨ rest.head? ≠ some '>') →
        scan (after ++ rest) = (do let toks ← scan after; (toks ++ ·) <$> scan rest))
      (hdash : (∃ toks, (do let toks ← scan after; return tok :: toks) = .ok toks) ∨
        rest.head? ≠ some '>') :
      (do let toks ← scan (after ++ rest); return tok :: toks) =
        (do let toks ← (do let toks ← scan after; return tok :: toks); (toks ++ ·) <$> scan rest) := by
    have hafter : (∃ toks, scan after = .ok toks) ∨ rest.head? ≠ some '>' := by
      refine hdash.imp_left ?_
      rintro ⟨toks, htoks⟩
      obtain ⟨toks', htoks', -⟩ := exists_of_cons_eq_ok htoks
      exact ⟨toks', htoks'⟩
    rw [ih hafter]
    cases scan after with
    | error m => rfl
    | ok toks => cases scan rest <;> rfl
  have hname : ∀ c ∈ rest.head?, isNameChar c = false := fun c hc => (hrest c hc).1
  have hdigit : ∀ c ∈ rest.head?, isDigit c = false := by
    intro c hc
    have := hname c hc
    simp only [isNameChar, Bool.or_eq_false_iff] at this
    exact this.2
  fun_induction scan cs with
  | case1 =>
    show scan rest = id <$> scan rest
    rw [id_map]
  | case2 c cs hblank ih =>
    rw [List.cons_append, scan, if_pos hblank]
    exact ih hdash
  | case3 c cs hblank hstart ih =>
    rw [List.cons_append, scan, if_neg hblank, if_pos hstart, hrest.spanName_append]
    exact hcons ih hdash
  | case4 cs hempty hblank hstart =>
    rw [List.cons_append, scan, if_neg hblank, if_neg hstart, if_pos rfl,
      (takeWhile_append_of_head hname cs).1, if_pos hempty]
    rfl
  | case5 cs hempty hblank hstart ih =>
    rw [List.cons_append, scan, if_neg hblank, if_neg hstart, if_pos rfl,
      (takeWhile_append_of_head hname cs).1, (takeWhile_append_of_head hname cs).2, if_neg hempty]
    exact hcons ih hdash
  | case6 c cs hblank hstart hquote hc ih =>
    rw [List.cons_append, scan, if_neg hblank, if_neg hstart, if_neg hquote, if_pos hc,
      (takeWhile_append_of_head hdigit cs).1, (takeWhile_append_of_head hdigit cs).2]
    exact hcons ih hdash
  | case7 cs hempty hblank hstart hquote hc =>
    rw [List.cons_append, scan, if_neg hblank, if_neg hstart, if_neg hquote, if_neg hc, if_pos rfl,
      (takeWhile_append_of_head hdigit cs).1, if_pos hempty]
    rfl
  | case8 cs hempty hblank hstart hquote hc ih =>
    rw [List.cons_append, scan, if_neg hblank, if_neg hstart, if_neg hquote, if_neg hc, if_pos rfl,
      (takeWhile_append_of_head hdigit cs).1, (takeWhile_append_of_head hdigit cs).2, if_neg hempty]
    exact hcons ih hdash
  | case9 c cs hblank hstart hquote hc hvar harrow ih =>
    obtain ⟨rfl, hhead⟩ := harrow
    obtain ⟨after, rfl⟩ := List.head?_eq_some_iff.mp hhead
    rw [List.cons_append, scan, if_neg hblank, if_neg hstart, if_neg hquote, if_neg hc, if_neg hvar,
      if_pos ⟨rfl, rfl⟩]
    exact hcons ih hdash
  | case10 c cs hblank hstart hquote hc hvar harrow hsym ih =>
    have hne : c ≠ '-' := (kinds_of_mem_symbols (List.contains_iff_mem.mp hsym)).2.2.2.2.2.2.1
    rw [List.cons_append, scan, if_neg hblank, if_neg hstart, if_neg hquote, if_neg hc, if_neg hvar,
      if_neg fun h => hne h.1, if_pos hsym]
    exact hcons ih hdash
  | case11 c cs hblank hstart hquote hc hvar harrow hsym =>
    have harrow' : ¬(c = '-' ∧ (cs ++ rest).head? = some '>') := by
      rintro ⟨rfl, hhead⟩
      cases cs with
      | nil =>
        rcases hdash with ⟨toks, htoks⟩ | hdash
        · cases htoks
        · exact hdash hhead
      | cons d cs => exact harrow ⟨rfl, hhead⟩
    rw [List.cons_append, scan, if_neg hblank, if_neg hstart, if_neg hquote, if_neg hc, if_neg hvar,
      if_neg harrow', if_neg hsym]
    rfl

/-- A symbol stops every token. -/
theorem stops_sym {c : Char} (hc : c ∈ symbols) (cs : List Char) : Stops (c :: cs) := by
  obtain ⟨-, -, -, hname, -, -, -, hcolon⟩ := kinds_of_mem_symbols hc
  exact stops_cons hname hcolon

/-- Parentheses end all tokens, so what stands in them is split by itself. -/
theorem scan_group_eq_ok_iff {inside : List Char} {inner : List Token} (h : scan inside = .ok inner)
    {front cs : List Char} {toks : List Token} :
    scan (front ++ '(' :: (inside ++ ')' :: cs)) = .ok toks ↔
      ∃ before after, scan front = .ok before ∧ scan cs = .ok after ∧
        toks = before ++ .sym '(' :: (inner ++ .sym ')' :: after) := by
  rw [scan_append (stops_sym (by decide) _) front (.inr (by simp)), scan_sym (by decide),
    scan_append (stops_sym (by decide) _) inside (.inl ⟨inner, h⟩), scan_sym (by decide), h]
  cases scan front with
  | error m => simp [bind, Except.bind]
  | ok before =>
    cases scan cs with
    | error m => simp [bind, Except.bind, Functor.map, Except.map]
    | ok after => simp [bind, Except.bind, Functor.map, Except.map, eq_comm]

end Token

/-! ## Blanks at the ends -/

namespace Text

/-- A text is what is left when it is trimmed, between blanks. -/
theorem exists_blanks (cs : List Char) :
    ∃ before after, cs = before ++ (trimChars cs ++ after) ∧ before.all isBlank = true ∧
      after.all isBlank = true := by
  refine ⟨cs.takeWhile isBlank, (cs.dropWhile isBlank).rtakeWhile isBlank, ?_,
    List.all_takeWhile, ?_⟩
  · show _ = _ ++ ((cs.dropWhile isBlank).rdropWhile isBlank ++ _)
    rw [List.rdropWhile_append_rtakeWhile, List.takeWhile_append_dropWhile]
  · exact List.all_eq_true.mpr fun c hc => List.mem_rtakeWhile_imp hc

theorem all_isPlain_of_blank {cs : List Char} (h : cs.all isBlank = true) : cs.all isPlain = true :=
  List.all_eq_true.mpr fun c hc => Token.isPlain_of_kind (.inl (List.all_eq_true.mp h c hc))

/-- Blanks at the ends do not matter to brackets. -/
theorem depthAfter?_trimChars (strict : Bool) (depth : Nat) (cs : List Char) :
    depthAfter? strict depth none (trimChars cs) = depthAfter? strict depth none cs := by
  obtain ⟨before, after, hcs, hbefore, hafter⟩ := exists_blanks cs
  conv_rhs => rw [hcs]
  rw [depthAfter?_plain (all_isPlain_of_blank hbefore) strict depth (by simp), depthAfter?_append]
  simp only [depthAfter?_of_plain (all_isPlain_of_blank hafter), Option.bind_fun_some]

end Text

namespace Token

/-- Digits of any script are neither blanks nor letters. -/
theorem kinds_of_digit {c : Char} (h : isDigit c = true) : isBlank c = false ∧ isLetter c = false :=
  ⟨Intervals.covers_eq_false_of_disjoint (by decide +kernel) h,
    (Intervals.not_covers_of_interleaved 0 (by decide +kernel) _).2.2 h⟩

/-- No name has a blank in it. -/
theorem isBlank_of_isNameChar {c : Char} (h : isNameChar c = true) : isBlank c = false := by
  rw [isNameChar, Bool.or_eq_true] at h
  rcases h with h | h
  · exact isBlank_of_isNameStart h
  · exact (kinds_of_digit h).1

/-- A blank ends all tokens. -/
theorem stops_of_isBlank {cs : List Char} (h : ∀ c ∈ cs.head?, isBlank c = true) : Stops cs := by
  intro c hc
  have hblank := h c hc
  refine ⟨Bool.eq_false_iff.mpr fun hname => ?_, ?_⟩
  · rw [isBlank_of_isNameChar hname] at hblank
    cases hblank
  · rintro rfl
    revert hblank
    decide

/-- Blanks at the ends do not matter to tokens. -/
theorem scan_trimChars (cs : List Char) : scan (trimChars cs) = scan cs := by
  have hskip {before : List Char} (hbefore : before.all isBlank = true) (rest : List Char) :
      scan (before ++ rest) = scan rest := by
    induction before with
    | nil => rfl
    | cons c before ih =>
      rw [List.all_cons, Bool.and_eq_true] at hbefore
      rw [List.cons_append, scan, if_pos hbefore.1, ih hbefore.2]
  -- blanks before the text are skipped, and those after it stop its last token
  obtain ⟨before, after, hcs, hbefore, hafter⟩ := exists_blanks cs
  have hblank : ∀ c ∈ after.head?, isBlank c = true := fun c hc =>
    List.all_eq_true.mp hafter c (List.mem_of_mem_head? hc)
  have harrow : after.head? ≠ some '>' := by
    intro hhead
    cases hblank '>' hhead
  have hend : scan after = .ok [] := by
    have hnil := hskip hafter []
    rwa [List.append_nil, scan] at hnil
  conv_rhs => rw [hcs]
  rw [hskip hbefore, scan_append (stops_of_isBlank hblank) _ (.inr harrow), hend]
  cases scan (trimChars cs) with
  | error m => rfl
  | ok toks => exact congrArg Except.ok (List.append_nil toks).symm

end Token

/-! ## Texts that stand for types -/

namespace Ty

/-- The text stands for the type. -/
def Denotes (cs : List Char) (t : Ty) : Prop :=
  ∃ toks, Token.scan cs = .ok toks ∧ read? toks = some (t, [])

/-- The texts are the same, except for the writing of some types that stand in parentheses. -/
inductive Respelled : List Char → List Char → Prop
  | nil : Respelled [] []
  | cons (c : Char) {cs ds : List Char} (h : Respelled cs ds) : Respelled (c :: cs) (c :: ds)
  | group {inside inside' : List Char} {t : Ty} (hinside : Denotes inside t)
      (hinside' : Denotes inside' t) {cs ds : List Char} (h : Respelled cs ds) :
      Respelled ('(' :: (inside ++ ')' :: cs)) ('(' :: (inside' ++ ')' :: ds))

/-- What a text is read to be. -/
theorem parse_ofList_eq_ok_iff {cs : List Char} {t : Ty} :
    parse (String.ofList cs) = .ok t ↔ Denotes cs t := by
  rw [parse_eq_ok_iff, String.toList_ofList]
  exact Iff.rfl

/-- Blanks at the ends of a text do not matter. -/
theorem denotes_trimChars {cs : List Char} {t : Ty} : Denotes (trimChars cs) t ↔ Denotes cs t := by
  rw [Denotes, Denotes, Token.scan_trimChars]

/-- The brackets of a text that stands for a type are all closed. -/
theorem Denotes.isSealed {cs : List Char} {t : Ty} (h : Denotes cs t) : isSealed cs = true := by
  have hparse := isSealed_of_parse (parse_ofList_eq_ok_iff.mpr h)
  rwa [String.toList_ofList] at hparse

/-- Behind a text that stands for a type the brackets are as deep as before it. -/
theorem Denotes.depthAfter?_eq {cs : List Char} {t : Ty} (h : Denotes cs t) (strict : Bool) :
    depthAfter? strict 1 none cs = some 1 :=
  Mark.depthAfter?_add (Mark.depthAfter?_of_strict (isSealed_iff.mp h.isSealed) strict) 1

/-! ## Texts that differ in parentheses -/

namespace Respelled

theorem refl (cs : List Char) : Respelled cs cs := by
  induction cs with
  | nil => exact .nil
  | cons c cs ih => exact .cons c ih

theorem symm {cs ds : List Char} (h : Respelled cs ds) : Respelled ds cs := by
  induction h with
  | nil => exact .nil
  | cons c _ ih => exact .cons c ih
  | group hinside hinside' _ ih => exact .group hinside' hinside ih

/-- Texts can be respelled part by part. -/
theorem append {cs ds cs' ds' : List Char} (h : Respelled cs ds) (h' : Respelled cs' ds') :
    Respelled (cs ++ cs') (ds ++ ds') := by
  induction h with
  | nil => exact h'
  | cons c _ ih => exact .cons c ih
  | group hinside hinside' _ ih =>
    simp only [List.cons_append, List.append_assoc]
    exact .group hinside hinside' ih

/-- The first difference, if there is one. -/
theorem eq_or_exists_group {cs ds : List Char} (h : Respelled cs ds) :
    cs = ds ∨ ∃ front inside inside' t cs' ds', cs = front ++ '(' :: (inside ++ ')' :: cs') ∧
      ds = front ++ '(' :: (inside' ++ ')' :: ds') ∧ Denotes inside t ∧ Denotes inside' t ∧
      Respelled cs' ds' := by
  induction h with
  | nil => exact .inl rfl
  | cons c _ ih =>
    rcases ih with rfl | ⟨front, inside, inside', t, cs', ds', rfl, rfl, hrest⟩
    · exact .inl rfl
    · exact .inr ⟨c :: front, inside, inside', t, cs', ds', rfl, rfl, hrest⟩
  | group hinside hinside' h _ => exact .inr ⟨[], _, _, _, _, _, rfl, rfl, hinside, hinside', h⟩

/-- The tokens differ at most in how types in parentheses are written. -/
theorem scan {cs ds : List Char} (h : Respelled cs ds) {toks : List Token}
    (hscan : Token.scan cs = .ok toks) : ∃ toks', Token.scan ds = .ok toks' ∧ Regrouped toks toks' := by
  -- up to the first difference both texts are split alike, since `(` ends all tokens
  rcases h.eq_or_exists_group with rfl | ⟨front, _, _, t, cs', ds', hcs, rfl, hinside, hinside', h'⟩
  · exact ⟨toks, hscan, .refl toks⟩
  · obtain ⟨inside, hinside, hread⟩ := hinside
    obtain ⟨inside', hinside', hread'⟩ := hinside'
    have hshorter : cs'.length < cs.length := by
      rw [hcs]
      simp only [List.length_append, List.length_cons]
      omega
    rw [hcs] at hscan
    obtain ⟨before, after, hbefore, hafter, rfl⟩ := (Token.scan_group_eq_ok_iff hinside).mp hscan
    obtain ⟨after', hafter', hregrouped⟩ := h'.scan hafter
    refine ⟨_, ?_, (Regrouped.group hread hread' hregrouped).append_left before⟩
    exact (Token.scan_group_eq_ok_iff hinside').mpr ⟨before, after', hbefore, hafter', rfl⟩
termination_by cs.length

/-- The texts stand for the same type. -/
theorem denotes {cs ds : List Char} (h : Respelled cs ds) {t : Ty} (ht : Denotes cs t) :
    Denotes ds t := by
  obtain ⟨toks, hscan, hread⟩ := ht
  obtain ⟨toks', hscan', hregrouped⟩ := h.scan hscan
  obtain ⟨rest, hread', hrest⟩ := hregrouped.read? hread
  -- nothing is left of the one, so nothing is left of the other
  cases hrest
  exact ⟨toks', hscan', hread'⟩

/-- Brackets and commas are at the same depth. -/
theorem depthAfter?_eq {cs ds : List Char} (h : Respelled cs ds) (strict : Bool) (depth : Nat)
    (previous : Option Char) :
    depthAfter? strict depth previous ds = depthAfter? strict depth previous cs := by
  induction h generalizing depth previous with
  | nil => rfl
  | cons c _ ih =>
    rw [depthAfter?_cons, depthAfter?_cons]
    exact congrArg _ (funext fun depth => ih depth (some c))
  | group hinside hinside' _ ih =>
    rw [depthAfter?_group (hinside.depthAfter?_eq strict),
      depthAfter?_group (hinside'.depthAfter?_eq strict), ih]

/-- The last characters are the same. -/
theorem lastAfter_eq {cs ds : List Char} (h : Respelled cs ds) (previous : Option Char) :
    lastAfter previous ds = lastAfter previous cs := by
  induction h generalizing previous with
  | nil => rfl
  | cons c _ ih => rw [lastAfter_cons, lastAfter_cons, ih]
  | group _ _ _ ih => simp only [lastAfter_cons, lastAfter_append, ih]

/-- The last character stays. -/
theorem getLast?_eq {cs ds : List Char} (h : Respelled cs ds) : ds.getLast? = cs.getLast? := by
  simpa [lastAfter] using h.lastAfter_eq none

/-- A last character that closes no parentheses can be taken away. -/
theorem exists_concat {cs ds : List Char} {c : Char} (h : Respelled (cs ++ [c]) ds) (hc : c ≠ ')') :
    ∃ ds', ds = ds' ++ [c] ∧ Respelled cs ds' := by
  generalize hall : cs ++ [c] = all at h
  induction h generalizing cs with
  | nil => simp at hall
  | cons d h ih =>
    cases cs with
    | nil =>
      obtain ⟨rfl, rfl⟩ := List.cons.inj hall
      cases h
      exact ⟨[], rfl, .nil⟩
    | cons e cs =>
      obtain ⟨rfl, hrest⟩ := List.cons.inj hall
      obtain ⟨ds', rfl, h'⟩ := ih hrest
      exact ⟨e :: ds', rfl, .cons e h'⟩
  | @group inside inside' t hinside hinside' after after' h ih =>
    -- the last character stands after the group
    rcases List.eq_nil_or_concat' after with rfl | ⟨front, last, rfl⟩
    · have hsplit : cs ++ [c] = ('(' :: inside) ++ [')'] := hall
      exact absurd (List.cons.inj (List.append_inj' hsplit rfl).2).1 hc
    · have hsplit : cs ++ [c] = ('(' :: (inside ++ ')' :: front)) ++ [last] := by simp [hall]
      obtain ⟨rfl, hlast⟩ := List.append_inj' hsplit rfl
      obtain rfl := (List.cons.inj hlast).1
      obtain ⟨ds', rfl, h'⟩ := ih rfl
      exact ⟨'(' :: (inside' ++ ')' :: ds'), by simp, .group hinside hinside' h'⟩

/-- Blanks in front are not respelled. -/
theorem dropWhile_isBlank {cs ds : List Char} (h : Respelled cs ds) :
    Respelled (cs.dropWhile isBlank) (ds.dropWhile isBlank) := by
  induction h with
  | nil => exact .nil
  | cons c h ih =>
    by_cases hc : isBlank c = true
    · simpa [hc] using ih
    · simpa [hc] using h.cons c
  | group hinside hinside' h _ =>
    have hparen : isBlank '(' = false := by decide
    simpa [hparen] using h.group hinside hinside'

/-- Blanks at the end are not respelled. -/
theorem rdropWhile_isBlank {cs ds : List Char} (h : Respelled cs ds) :
    Respelled (cs.rdropWhile isBlank) (ds.rdropWhile isBlank) := by
  induction cs using List.reverseRecOn generalizing ds with
  | nil =>
    cases h
    exact .nil
  | append_singleton cs c ih =>
    by_cases hc : isBlank c = true
    · have hclose : c ≠ ')' := by
        rintro rfl
        exact absurd hc (by decide)
      obtain ⟨ds', rfl, h'⟩ := h.exists_concat hclose
      rw [List.rdropWhile_concat_pos _ _ _ hc, List.rdropWhile_concat_pos _ _ _ hc]
      exact ih h'
    · obtain ⟨ds', rfl⟩ : ∃ ds', ds = ds' ++ [c] := by
        have hlast : ds.getLast? = some c := by simpa using h.getLast?_eq
        exact List.getLast?_eq_some_iff.mp hlast
      rwa [List.rdropWhile_concat_neg _ _ _ hc, List.rdropWhile_concat_neg _ _ _ hc]

/-- Trimming keeps texts respelled. -/
theorem trimChars {cs ds : List Char} (h : Respelled cs ds) :
    Respelled (trimChars cs) (trimChars ds) :=
  h.dropWhile_isBlank.rdropWhile_isBlank

theorem isEmpty_eq {cs ds : List Char} (h : Respelled cs ds) : ds.isEmpty = cs.isEmpty := by
  cases h <;> rfl

/-- A first character stays unless it opens a parenthesis. -/
theorem exists_cons {c : Char} {cs ds : List Char} (h : Respelled (c :: cs) ds) (hc : c ≠ '(') :
    ∃ ds', ds = c :: ds' ∧ Respelled cs ds' := by
  cases h with
  | cons _ h => exact ⟨_, rfl, h⟩
  | group => exact absurd rfl hc

/-- What is in front of all parentheses stays. -/
theorem exists_append {front cs ds : List Char} (hfront : '(' ∉ front)
    (h : Respelled (front ++ cs) ds) : ∃ ds', ds = front ++ ds' ∧ Respelled cs ds' := by
  induction front generalizing ds with
  | nil => exact ⟨ds, rfl, h⟩
  | cons c front ih =>
    obtain ⟨hc, hfront⟩ := not_or.mp (mt List.mem_cons.mpr hfront)
    obtain ⟨ds', rfl, h'⟩ := h.exists_cons (Ne.symm hc)
    obtain ⟨ds'', rfl, h''⟩ := ih hfront h'
    exact ⟨ds'', rfl, h''⟩

/-- A text without parentheses has no other spelling. -/
theorem eq_of_not_mem {cs ds : List Char} (h : Respelled cs ds) (hcs : '(' ∉ cs) : ds = cs := by
  rw [← List.append_nil cs] at h
  obtain ⟨ds', rfl, hnil⟩ := h.exists_append hcs
  cases hnil
  rw [List.append_nil]

/-- Lists are split at the same commas. The parentheses of a group may stand one bracket further out than
the list, but not more. -/
theorem partsAtDepth {cs ds : List Char} (h : Respelled cs ds) {depth next : Nat}
    {previous : Option Char} (hdepth : depthAfter? false depth previous cs = some next) :
    Respelled (partsAtDepth ',' ((depth : Int) - 1) previous cs).1
        (partsAtDepth ',' ((depth : Int) - 1) previous ds).1 ∧
      List.Forall₂ Respelled (partsAtDepth ',' ((depth : Int) - 1) previous cs).2
        (partsAtDepth ',' ((depth : Int) - 1) previous ds).2 := by
  induction h generalizing depth previous with
  | nil => exact ⟨.nil, .nil⟩
  | cons c h ih =>
    obtain ⟨between, hstep, hrest⟩ := Option.bind_eq_some_iff.mp hdepth
    have hparts := ih hrest
    rw [partsAtDepth_cons, partsAtDepth_cons]
    cases hmark : mark previous c with
    | opening =>
      rw [hmark] at hstep
      obtain rfl := Option.some.inj hstep
      have hdeeper : (depth : Int) - 1 + 1 = (depth + 1 : Nat) - 1 := by omega
      rw [hdeeper]
      exact ⟨.cons c hparts.1, hparts.2⟩
    | closing =>
      rw [hmark] at hstep
      cases depth with
      | zero => cases hstep
      | succ depth =>
        obtain rfl := Option.some.inj hstep
        have hout : ((depth + 1 : Nat) : Int) - 1 - 1 = depth - 1 := by omega
        rw [hout]
        exact ⟨.cons c hparts.1, hparts.2⟩
    | comma =>
      rw [hmark] at hstep
      obtain rfl : depth = between := by simpa [Mark.step] using hstep
      by_cases houter : (depth : Int) - 1 = 0
      · simp only [if_pos houter]
        exact ⟨.nil, .cons hparts.1 hparts.2⟩
      · simp only [if_neg houter]
        exact ⟨.cons c hparts.1, hparts.2⟩
    | plain =>
      rw [hmark] at hstep
      obtain rfl := Option.some.inj hstep
      exact ⟨.cons c hparts.1, hparts.2⟩
  | group hinside hinside' h ih =>
    rw [depthAfter?_group (hinside.depthAfter?_eq false)] at hdepth
    have hafter : depthAfter? false depth (some ')') _ = some next :=
      (depthAfter?_congr (by decide) false depth _).trans hdepth
    obtain ⟨hfirst, hothers⟩ := ih hafter
    -- all commas of a type are in brackets, so no part ends inside the group
    rw [partsAtDepth_group hinside.isSealed, partsAtDepth_group hinside'.isSealed]
    exact ⟨.group hinside hinside' hfirst, hothers⟩

end Respelled

end Ty

end Generics
