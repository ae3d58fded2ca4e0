import Generics.Proofs.Ty.Respelling

/-!
# Texts and their tokens

Which tokens a text splits into, said without the scanner. Each kind of token has its own texts. Blanks
may stand between tokens, and a token is as long as it can be: what follows does not go on with it.

## Main results

* `Token.Splits`: a text splits into tokens;
* `Token.scan_eq_ok_iff`: the scanner finds the tokens of a text if it splits into some, and there are no
  others.
-/

namespace Generics

namespace Token

open Text

/-- The token as it is written. -/
def chars : Token → List Char
  | .ident name => name.toList
  | .region name => name.toList
  | .number digits => digits.toList
  | .var digits => '?' :: digits.toList
  | .sym c => [c]
  | .arrow => ['-', '>']

/-- The text of the token is one of those that its kind has. -/
def isLexeme : Token → Bool
  | .ident name => isIdent name.toList
  | .region name => isRegion name.toList
  | .number digits | .var digits => !digits.toList.isEmpty && digits.toList.all isDigit
  | .sym c => symbols.contains c
  | .arrow => true

/-- With more of the text that follows, the token would be a longer one of its kind. -/
def goesOn : Token → List Char → Bool
  | .ident _, cs => cs.head?.any isNameChar || [':', ':'].isPrefixOf cs
  | .region _, cs => cs.head?.any isNameChar
  | .number _, cs | .var _, cs => cs.head?.any isDigit
  | .sym _, _ | .arrow, _ => false

/-- The text splits into the tokens. -/
inductive Splits : List Char → List Token → Prop
  | nil : Splits [] []
  | blank {c : Char} {cs : List Char} {toks : List Token} (hc : isBlank c = true) (h : Splits cs toks) :
      Splits (c :: cs) toks
  | token {tok : Token} {cs : List Char} {toks : List Token} (htok : tok.isLexeme = true)
      (hend : tok.goesOn cs = false) (h : Splits cs toks) : Splits (tok.chars ++ cs) (tok :: toks)

/-! ## The scanner splits -/

theorem goesOn_spanName (name : String) (cs : List Char) :
    (ident name).goesOn (spanName cs).2 = false := by
  fun_induction spanName cs with
  | case1 => rfl
  | case2 cs ih => exact ih
  | case3 c cs _ hname ih => exact ih
  | case4 c cs hpath hname =>
    have hcolons : [':', ':'].isPrefixOf (c :: cs) = false := by
      rw [Bool.eq_false_iff, Ne, List.isPrefixOf_iff_prefix]
      rintro ⟨rest, hrest⟩
      obtain ⟨rfl, rfl⟩ := List.cons.inj hrest
      exact hpath rest rfl rfl
    simpa [goesOn, hcolons] using hname

theorem splits_of_scan {cs : List Char} {toks : List Token} (h : scan cs = .ok toks) :
    Splits cs toks := by
  -- a token in front of those that the rest is split into
  have hcons {tok : Token} {before after : List Char} {toks : List Token}
      (h : (do let rest ← scan after; return tok :: rest) = .ok toks) (hchars : tok.chars = before)
      (htok : tok.isLexeme = true) (hend : tok.goesOn after = false)
      (ih : ∀ {toks}, scan after = .ok toks → Splits after toks) : Splits (before ++ after) toks := by
    obtain ⟨rest, hrest, rfl⟩ := exists_of_cons_eq_ok h
    rw [← hchars]
    exact .token htok hend (ih hrest)
  have hstop (p : Char → Bool) (cs : List Char) : (cs.dropWhile p).head?.any p = false :=
    (Option.any_eq_false p _).mpr (head?_dropWhile p cs)
  fun_induction scan cs generalizing toks with
  | case1 =>
    obtain rfl := Except.ok.inj h
    exact .nil
  | case2 c cs hblank ih => exact .blank hblank (ih h)
  | case3 c cs hblank hname ih =>
    have hsplit := hcons h String.toList_ofList
      (by simp [isLexeme, isIdent, hname, isNameTail_spanName]) (goesOn_spanName _ cs) ih
    rwa [List.cons_append, spanName_fst_append_snd] at hsplit
  | case4 c cs hempty => cases h
  | case5 cs hempty hblank hname ih =>
    have hregion : (region (String.ofList ('\'' :: cs.takeWhile isNameChar))).isLexeme = true := by
      have hall : (cs.takeWhile isNameChar).all isNameChar = true := List.all_takeWhile
      cases hcs : cs.takeWhile isNameChar with
      | nil => simp [hcs] at hempty
      | cons c tail =>
        rw [hcs] at hall
        simpa [isLexeme, isRegion] using hall
    have hsplit := hcons h String.toList_ofList hregion (hstop isNameChar cs) ih
    rwa [List.cons_append, List.takeWhile_append_dropWhile] at hsplit
  | case6 c cs hblank hname hquote hdigit ih =>
    have hnumber : (number (String.ofList (c :: cs.takeWhile isDigit))).isLexeme = true := by
      simp [isLexeme, hdigit]
    have hsplit := hcons h String.toList_ofList hnumber (hstop isDigit cs) ih
    rwa [List.cons_append, List.takeWhile_append_dropWhile] at hsplit
  | case7 => cases h
  | case8 cs hempty _ _ _ _ ih =>
    have hvar : (var (String.ofList (cs.takeWhile isDigit))).isLexeme = true := by
      simpa [isLexeme] using hempty
    have hsplit := hcons h (congrArg (List.cons '?') String.toList_ofList) hvar (hstop isDigit cs) ih
    rwa [List.cons_append, List.takeWhile_append_dropWhile] at hsplit
  | case9 c cs _ _ _ _ _ harrow ih =>
    obtain ⟨rfl, hhead⟩ := harrow
    obtain ⟨tail, rfl⟩ := List.head?_eq_some_iff.mp hhead
    exact hcons h rfl rfl rfl ih
  | case10 c cs _ _ _ _ _ _ hsym ih => exact hcons h rfl hsym rfl ih
  | case11 => cases h

/-! ## What splits is scanned -/

theorem isNameStart_of_isDigit {c : Char} (h : isDigit c = true) : isNameStart c = false := by
  have hword : c ≠ '_' := by
    rintro rfl
    exact absurd h (by decide)
  simp [isNameStart, (kinds_of_digit h).2, hword]

theorem chars_ne_nil {tok : Token} (h : tok.isLexeme = true) : tok.chars ≠ [] := by
  intro hnil
  cases tok with
  | ident name =>
    rw [chars] at hnil
    simp [isLexeme, hnil, isIdent] at h
  | region name =>
    rw [chars] at hnil
    simp [isLexeme, hnil, isRegion] at h
  | number digits =>
    rw [chars] at hnil
    simp [isLexeme, hnil] at h
  | _ => cases hnil

/-- No token starts with a colon. -/
theorem head?_chars_ne_colon {tok : Token} (h : tok.isLexeme = true) (cs : List Char) :
    (tok.chars ++ cs).head? ≠ some ':' := by
  obtain ⟨-, hname, hdigit, -⟩ := kinds_of_mark (c := ':') (by simp)
  obtain ⟨c, tail, hchars⟩ := List.exists_cons_of_ne_nil (chars_ne_nil h)
  rw [hchars]
  rintro ⟨⟩
  cases tok with
  | ident name =>
    rw [chars] at hchars
    simp [isLexeme, hchars, isIdent, hname] at h
  | region name =>
    rw [chars] at hchars
    simp [isLexeme, hchars, isRegion] at h
  | number digits =>
    rw [chars] at hchars
    simp [isLexeme, hchars, hdigit] at h
  | sym c =>
    obtain ⟨rfl, -⟩ := List.cons.inj hchars
    cases h
  | _ => cases hchars

theorem Splits.head?_ne_colon {cs : List Char} {toks : List Token} (h : Splits cs toks) :
    cs.head? ≠ some ':' := by
  cases h with
  | nil => simp
  | blank hc h =>
    rintro ⟨⟩
    cases hc
  | token htok hend h => exact head?_chars_ne_colon htok _

/-- A name or a region ends before what does not go on with it. A lone colon is no part of a token. -/
theorem stops_of_any {cs : List Char} (hname : cs.head?.any isNameChar = false)
    (hcolon : cs.head? ≠ some ':') : Stops cs := by
  intro c hc
  rw [Option.mem_def] at hc
  rw [hc] at hname hcolon
  exact ⟨hname, fun h => hcolon (congrArg some h)⟩

/-- Digits end before what is no digit. -/
theorem takeWhile_digits {ds cs : List Char} (hds : ds.all isDigit = true)
    (hend : cs.head?.any isDigit = false) :
    (ds ++ cs).takeWhile isDigit = ds ∧ (ds ++ cs).dropWhile isDigit = cs :=
  takeWhile_append_of_all hds ((Option.any_eq_false isDigit _).mp hend)

/-- The scanner takes the first token off. -/
theorem scan_token {tok : Token} {cs : List Char} (htok : tok.isLexeme = true)
    (hend : tok.goesOn cs = false) (hcolon : cs.head? ≠ some ':') :
    scan (tok.chars ++ cs) = (tok :: ·) <$> scan cs := by
  cases tok with
  | ident name =>
    rw [goesOn, Bool.or_eq_false_iff] at hend
    exact spells_ident name htok cs (stops_of_any hend.1 hcolon)
  | region name => exact spells_region name htok cs (stops_of_any hend hcolon)
  | number digits =>
    rw [isLexeme, Bool.and_eq_true] at htok
    obtain ⟨c, tail, hdigits⟩ := List.exists_cons_of_ne_nil (l := digits.toList) (by simpa using htok.1)
    have hback : String.ofList (c :: tail) = digits := by rw [← hdigits, String.ofList_toList]
    rw [hdigits, List.all_cons, Bool.and_eq_true] at htok
    -- a digit is no blank, and starts neither a name nor a region
    have hblank := (kinds_of_digit htok.2.1).1
    have hname := isNameStart_of_isDigit htok.2.1
    have hquote : c ≠ '\'' := by
      rintro rfl
      exact absurd htok.2.1 (by decide)
    obtain ⟨htake, hdrop⟩ := takeWhile_digits htok.2.2 hend
    rw [chars, hdigits, List.cons_append, scan]
    simp only [htok.2.1, hblank, hname, hquote, htake, hdrop, hback, Bool.false_eq_true, if_false, if_true]
    rfl
  | var digits =>
    rw [isLexeme, Bool.and_eq_true] at htok
    obtain ⟨htake, hdrop⟩ := takeWhile_digits htok.2 hend
    have hkinds := kinds_of_mark (c := '?') (by simp)
    have hsome : digits.toList.isEmpty = false := by simpa using htok.1
    rw [chars, List.cons_append, scan]
    simp [hkinds, htake, hdrop, hsome]
  | sym c => exact scan_sym (List.contains_iff_mem.mp htok) cs
  | arrow =>
    have hkinds := kinds_of_mark (c := '-') (by simp)
    rw [chars, List.cons_append, List.singleton_append, scan]
    simp [hkinds]

theorem Splits.scan_eq {cs : List Char} {toks : List Token} (h : Splits cs toks) :
    scan cs = .ok toks := by
  induction h with
  | nil => rw [scan]
  | blank hc h ih => rw [scan, if_pos hc, ih]
  | token htok hend h ih =>
    rw [scan_token htok hend h.head?_ne_colon, ih]
    rfl

/-- The scanner finds the tokens that a text splits into, and there are no others. -/
theorem scan_eq_ok_iff {cs : List Char} {toks : List Token} :
    scan cs = .ok toks ↔ Splits cs toks :=
  ⟨splits_of_scan, Splits.scan_eq⟩

end Token

end Generics
