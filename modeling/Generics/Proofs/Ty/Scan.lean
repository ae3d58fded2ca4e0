import Generics.Lists
import Generics.Text.Decimal
import Generics.Text.Join
import Generics.Ty.Token
import Mathlib.Data.List.Forall2

/-!
# Texts that spell tokens

A text spells tokens if the scanner splits it into them whatever stands after it. A name, a region, a
number or a variable would go on into a letter, a digit, an underscore or a colon, so the text that
follows may not start with one of these. Punctuation and blanks end every token before them, which is
why texts that spell tokens can be put together.

## Main results

* `Token.Spells`: a text spells tokens;
* `Token.spells_ident`, `Token.spells_region`, `Token.spells_number`, `Token.spells_var`: the tokens
  with a text of their own;
* `Token.Spells.then_sym`, `Token.Spells.then_blank`: one text after another;
* `Token.Spells.commaSep`: texts with commas between them.
-/

namespace Generics

namespace Text.Intervals

/-- No code point lies in an interval of both lists. -/
def disjoint (xs ys : Intervals) : Bool :=
  xs.all fun a => ys.all fun b => a.2 < b.1 || b.2 < a.1

/-- A code in one of two disjoint sets is not in the other. -/
theorem covers_eq_false_of_disjoint {xs ys : Intervals} (h : disjoint xs ys = true) {code : Nat}
    (hx : covers xs code = true) : covers ys code = false := by
  rw [Bool.eq_false_iff]
  intro hy
  obtain ⟨a, ha, hafter, hbefore⟩ := covers_iff.mp hx
  obtain ⟨b, hb, hafter', hbefore'⟩ := covers_iff.mp hy
  simp only [disjoint, List.all_eq_true, Bool.or_eq_true, decide_eq_true_eq] at h
  have := h a ha b hb
  omega

/-- Going up from a code point, the intervals of the two lists come one behind the other. -/
def interleaved (start : Nat) : Intervals → Intervals → Bool
  | [], ys => ys.all (start ≤ ·.1)
  | xs, [] => xs.all (start ≤ ·.1)
  | a :: xs, b :: ys =>
    if a.1 ≤ b.1 then start ≤ a.1 && a.1 ≤ a.2 && interleaved (a.2 + 1) xs (b :: ys)
    else start ≤ b.1 && b.1 ≤ b.2 && interleaved (b.2 + 1) (a :: xs) ys
termination_by xs ys => xs.length + ys.length

/-- A code is in the first interval or in one of the others. -/
theorem covers_cons (a : Nat × Nat) (xs : Intervals) (code : Nat) :
    covers (a :: xs) code = true ↔ (a.1 ≤ code ∧ code ≤ a.2) ∨ covers xs code = true := by
  simp [covers]

/-- A code is not below the starts of all intervals. -/
theorem le_of_all {start : Nat} {xs : Intervals} (h : xs.all (start ≤ ·.1) = true) {code : Nat}
    (hx : covers xs code = true) : start ≤ code := by
  obtain ⟨a, ha, hafter, -⟩ := covers_iff.mp hx
  exact Nat.le_trans (of_decide_eq_true (List.all_eq_true.mp h a ha)) hafter

/-- Intervals that come one behind the other have no code point in common. -/
theorem not_covers_of_interleaved (start : Nat) {xs ys : Intervals}
    (h : interleaved start xs ys = true) (code : Nat) :
    (covers xs code = true → start ≤ code) ∧ (covers ys code = true → start ≤ code) ∧
      (covers xs code = true → covers ys code = false) := by
  fun_induction interleaved start xs ys with
  | case1 start ys => exact ⟨nofun, le_of_all h, nofun⟩
  | case2 start xs => exact ⟨le_of_all h, nofun, fun _ => rfl⟩
  | case3 start a xs b ys hle ih =>
    simp only [Bool.and_eq_true, decide_eq_true_eq] at h
    obtain ⟨hx, hy, hxy⟩ := ih h.2
    grind [covers_cons]
  | case4 start a xs b ys hle ih =>
    simp only [Bool.and_eq_true, decide_eq_true_eq] at h
    obtain ⟨hx, hy, hxy⟩ := ih h.2
    grind [covers_cons]

end Text.Intervals

namespace Token

open Text

/-- No letter is blank. -/
theorem isBlank_of_isLetter {c : Char} (h : isLetter c = true) : isBlank c = false :=
  Intervals.covers_eq_false_of_disjoint (by decide +kernel) h

/-- No name starts with a blank. -/
theorem isBlank_of_isNameStart {c : Char} (h : isNameStart c = true) : isBlank c = false := by
  rw [isNameStart, Bool.or_eq_true, decide_eq_true_eq] at h
  rcases h with rfl | h
  · rfl
  · exact isBlank_of_isLetter h

/-- The marks that stand between names and numbers are no parts of them. -/
theorem kinds_of_mark {c : Char} (hc : c ∈ ' ' :: ':' :: '-' :: '?' :: '\'' :: symbols) :
    (isBlank c = true ↔ c = ' ') ∧ isNameStart c = false ∧ isDigit c = false ∧ isNameChar c = false := by
  have hall : (' ' :: ':' :: '-' :: '?' :: '\'' :: symbols).all (fun c =>
      isBlank c == decide (c = ' ') && !isNameStart c && !isDigit c) = true := by decide +kernel
  have hkinds := List.all_eq_true.mp hall c hc
  simp only [Bool.and_eq_true, Bool.not_eq_true', beq_iff_eq] at hkinds
  obtain ⟨⟨hblank, hname⟩, hdigit⟩ := hkinds
  refine ⟨by simp [hblank], hname, hdigit, ?_⟩
  simpa [isNameChar, isNameStart, hdigit] using hname

/-- The rest of a name, in which colons stand in pairs. -/
def isNameTail : List Char → Bool
  | [] => true
  | ':' :: ':' :: cs => isNameTail cs
  | c :: cs => isNameChar c && isNameTail cs

/-- The text is a name. -/
def isIdent : List Char → Bool
  | [] => false
  | c :: cs => isNameStart c && isNameTail cs

/-- The text is a region with its leading quote. -/
def isRegion : List Char → Bool
  | '\'' :: c :: cs => (c :: cs).all isNameChar
  | _ => false

/-- No token that ends before the text goes on into it. -/
def Stops (cs : List Char) : Prop := ∀ c ∈ cs.head?, isNameChar c = false ∧ c ≠ ':'

/-- A character that is in no name stops every token. -/
theorem stops_cons {c : Char} {cs : List Char} (hname : isNameChar c = false) (hcolon : c ≠ ':') :
    Stops (c :: cs) := by
  simp [Stops, hname, hcolon]

/-- A name does not go on with what stops it. -/
theorem Stops.spanName {cs : List Char} (h : Stops cs) : spanName cs = ([], cs) := by
  cases cs with
  | nil => rfl
  | cons c cs =>
    have ⟨hname, hcolon⟩ := h c rfl
    rw [Token.spanName]
    · simp [hname]
    · rintro _ rfl
      exact absurd rfl hcolon

/-- A name is taken up to what stops it. -/
theorem spanName_append {cs rest : List Char} (hcs : isNameTail cs = true) (hrest : Stops rest) :
    spanName (cs ++ rest) = (cs, rest) := by
  fun_induction isNameTail cs with
  | case1 => exact hrest.spanName
  | case2 cs ih => simp [spanName, ih hcs]
  | case3 c cs hpath ih =>
    rw [Bool.and_eq_true] at hcs
    have hc : c ≠ ':' := by
      rintro rfl
      rw [(kinds_of_mark (by simp)).2.2.2] at hcs
      exact absurd hcs.1 Bool.false_ne_true
    rw [List.cons_append, spanName]
    · simp [hcs.1, ih hcs.2]
    · rintro _ rfl
      exact absurd rfl hc

/-- The text is split into the tokens, whatever stands after it that does not go on with the last
one. -/
def Spells (cs : List Char) (toks : List Token) : Prop :=
  ∀ rest, Stops rest → scan (cs ++ rest) = (toks ++ ·) <$> scan rest

/-- Alone, the text is split into the tokens. -/
theorem Spells.scan {cs : List Char} {toks : List Token} (h : Spells cs toks) :
    Token.scan cs = .ok toks := by
  have hscan := h [] (by simp [Stops])
  rw [List.append_nil, Token.scan] at hscan
  rw [hscan]
  exact congrArg Except.ok (List.append_nil toks)

theorem spells_nil : Spells [] [] := by
  intro rest _
  rw [List.nil_append]
  cases Token.scan rest <;> rfl

/-- Texts one after the other are split into the tokens of both, if the second does not go on with
the first. -/
theorem Spells.append {cs cs' : List Char} {toks toks' : List Token} (h : Spells cs toks)
    (h' : Spells cs' toks') (hstops : ∀ rest, Stops rest → Stops (cs' ++ rest)) :
    Spells (cs ++ cs') (toks ++ toks') := by
  intro rest hrest
  rw [List.append_assoc, h _ (hstops rest hrest), h' rest hrest]
  cases Token.scan rest with
  | error e => rfl
  | ok _ => exact congrArg Except.ok (List.append_assoc ..).symm

/-- A token that ends by itself before the text. -/
theorem Spells.cons {c : Char} {cs : List Char} {tok : Token} {toks : List Token}
    (hc : ∀ rest, Token.scan (c :: rest) = (tok :: ·) <$> Token.scan rest) (h : Spells cs toks) :
    Spells (c :: cs) (tok :: toks) := by
  intro rest hrest
  rw [List.cons_append, hc, h rest hrest]
  cases Token.scan rest <;> rfl

/-- Punctuation is none of the other kinds of characters, and ends names. -/
theorem kinds_of_mem_symbols {c : Char} (hc : c ∈ symbols) :
    isBlank c = false ∧ isNameStart c = false ∧ isDigit c = false ∧ isNameChar c = false ∧
      c ≠ '\'' ∧ c ≠ '?' ∧ c ≠ '-' ∧ c ≠ ':' := by
  have hmarks : symbols.all (fun c => c ≠ ' ' && c ≠ '\'' && c ≠ '?' && c ≠ '-' && c ≠ ':') = true := by
    decide
  have hne := List.all_eq_true.mp hmarks c hc
  simp only [Bool.and_eq_true, decide_eq_true_eq, and_assoc] at hne
  obtain ⟨hblank, hname, hdigit, htail⟩ := kinds_of_mark (c := c) (by simp [hc])
  exact ⟨by rw [Bool.eq_false_iff, Ne, hblank]; exact hne.1, hname, hdigit, htail, hne.2⟩

/-- A symbol is a token of its own. -/
theorem scan_sym {c : Char} (hc : c ∈ symbols) (rest : List Char) :
    Token.scan (c :: rest) = (.sym c :: ·) <$> Token.scan rest := by
  obtain ⟨hblank, hname, hdigit, -, hquote, hvar, harrow, -⟩ := kinds_of_mem_symbols hc
  have hsym : symbols.contains c = true := List.contains_iff_mem.mpr hc
  rw [Token.scan]
  simp only [hblank, hname, hquote, hdigit, hvar, harrow, hsym, Bool.false_eq_true, if_false, false_and,
    if_true]
  rfl

/-- A symbol in front is one more token. -/
theorem Spells.sym {c : Char} {cs : List Char} {toks : List Token} (hc : c ∈ symbols)
    (h : Spells cs toks) : Spells (c :: cs) (.sym c :: toks) :=
  h.cons (scan_sym hc)

/-- Punctuation ends whatever stands before it. -/
theorem Spells.then_sym {c : Char} {cs cs' : List Char} {toks toks' : List Token}
    (h : Spells cs toks) (hc : c ∈ symbols) (h' : Spells cs' toks') :
    Spells (cs ++ c :: cs') (toks ++ .sym c :: toks') := by
  obtain ⟨-, -, -, hname, -, -, -, hcolon⟩ := kinds_of_mem_symbols hc
  exact h.append (h'.sym hc) fun _ _ => stops_cons hname hcolon

/-- A blank in front is no token. -/
theorem Spells.blank {cs : List Char} {toks : List Token} (h : Spells cs toks) :
    Spells (' ' :: cs) toks := by
  intro rest hrest
  rw [List.cons_append, Token.scan, if_pos (by rfl)]
  exact h rest hrest

/-- A blank ends whatever stands before it. -/
theorem Spells.then_blank {cs cs' : List Char} {toks toks' : List Token} (h : Spells cs toks)
    (h' : Spells cs' toks') : Spells (cs ++ ' ' :: cs') (toks ++ toks') :=
  h.append h'.blank fun _ _ => stops_cons (kinds_of_mark (by simp)).2.2.2 (by decide)

/-- An arrow in front is one more token. -/
theorem Spells.arrow {cs : List Char} {toks : List Token} (h : Spells cs toks) :
    Spells ('-' :: '>' :: cs) (.arrow :: toks) := by
  intro rest hrest
  have hkinds := kinds_of_mark (c := '-') (by simp)
  rw [List.cons_append, List.cons_append, Token.scan]
  simp [hkinds]
  rw [h rest hrest]
  cases Token.scan rest <;> rfl

/-- A name is one token. -/
theorem spells_ident (name : String) (h : isIdent name.toList = true) :
    Spells name.toList [.ident name] := by
  intro rest hrest
  obtain ⟨c, cs, hname⟩ : ∃ c cs, name.toList = c :: cs := by
    cases hcs : name.toList with
    | nil => simp [hcs, isIdent] at h
    | cons c cs => exact ⟨c, cs, rfl⟩
  rw [hname, isIdent, Bool.and_eq_true] at h
  have hspan := spanName_append h.2 hrest
  have hback : String.ofList (c :: cs) = name := by rw [← hname, String.ofList_toList]
  rw [hname, List.cons_append, Token.scan]
  simp only [isBlank_of_isNameStart h.1, h.1, hspan, hback, Bool.false_eq_true, if_false, if_true]
  rfl

/-- A region is one token. -/
theorem spells_region (name : String) (h : isRegion name.toList = true) :
    Spells name.toList [.region name] := by
  intro rest hrest
  obtain ⟨c, cs, hname⟩ : ∃ c cs, name.toList = '\'' :: c :: cs := by
    unfold isRegion at h
    split at h
    · exact ⟨_, _, ‹_›⟩
    · cases h
  rw [hname, isRegion] at h
  obtain ⟨htake, hdrop⟩ := takeWhile_append_of_all h fun c hc => (hrest c hc).1
  have hback : String.ofList ('\'' :: c :: cs) = name := by rw [← hname, String.ofList_toList]
  have hkinds := kinds_of_mark (c := '\'') (by simp)
  rw [hname, List.cons_append, Token.scan]
  simp only [hkinds, htake, hdrop, hback, Bool.false_eq_true, if_false, if_true, List.isEmpty_cons]
  rfl

/-- The digits `0` to `9` are digits and nothing else. -/
theorem kinds_of_isDigit {c : Char} (h : c.isDigit = true) :
    isDigit c = true ∧ isBlank c = false ∧ isNameStart c = false ∧ c ≠ '\'' := by
  have hrange : Intervals.covers [(0x30, 0x39)] c.toNat = true := by
    simp only [Char.isDigit, ge_iff_le, Bool.and_eq_true, decide_eq_true_eq, UInt32.le_iff_toNat_le] at h
    simpa [Intervals.covers] using h
  have hword : c ≠ '_' := by
    rintro rfl
    cases h
  refine ⟨?_, Intervals.covers_eq_false_of_disjoint (by decide) hrange, ?_, ?_⟩
  · obtain ⟨range, hmem, hin⟩ := Intervals.covers_iff.mp hrange
    exact Intervals.covers_iff.mpr ⟨range, by simp_all [digitIntervals], hin⟩
  · have hletter : isLetter c = false :=
      Intervals.covers_eq_false_of_disjoint (by decide +kernel) hrange
    simp [isNameStart, hletter, hword]
  · rintro rfl
    cases h

/-- Digits end where a name would. -/
theorem Stops.digits {cs rest : List Char} (hrest : Stops rest) (hcs : ∀ c ∈ cs, c.isDigit = true) :
    (cs ++ rest).takeWhile isDigit = cs ∧ (cs ++ rest).dropWhile isDigit = rest := by
  refine takeWhile_append_of_all (List.all_eq_true.mpr fun c hc => (kinds_of_isDigit (hcs c hc)).1) ?_
  intro c hc
  have hname := (hrest c hc).1
  simp only [isNameChar, Bool.or_eq_false_iff] at hname
  exact hname.2

/-- A number is one token. -/
theorem spells_number (n : Nat) : Spells (decimal n) [.number (String.ofList (decimal n))] := by
  intro rest hrest
  obtain ⟨c, cs, hn⟩ := List.exists_cons_of_ne_nil (decimal_ne_nil n)
  have hdigits : ∀ d ∈ c :: cs, d.isDigit = true := fun d hd => isDigit_of_mem_decimal (hn ▸ hd)
  obtain ⟨hc, hcs⟩ := List.forall_mem_cons.mp hdigits
  obtain ⟨hdigit, hblank, hname, hquote⟩ := kinds_of_isDigit hc
  obtain ⟨htake, hdrop⟩ := hrest.digits hcs
  rw [hn, List.cons_append, Token.scan]
  simp only [hdigit, hblank, hname, hquote, htake, hdrop, Bool.false_eq_true, if_false, if_true]
  rfl

/-- A numbered variable is one token. -/
theorem spells_var (n : Nat) : Spells ('?' :: decimal n) [.var (String.ofList (decimal n))] := by
  intro rest hrest
  obtain ⟨htake, hdrop⟩ := hrest.digits fun _ => isDigit_of_mem_decimal (n := n)
  have hkinds := kinds_of_mark (c := '?') (by simp)
  rw [List.cons_append, Token.scan]
  simp [hkinds, htake, hdrop, decimal_ne_nil]

/-- Lists of tokens with a comma between each two. -/
def commaSep : List (List Token) → List Token
  | [] => []
  | [part] => part
  | part :: next :: parts => part ++ sym ',' :: commaSep (next :: parts)

/-- The parts of a list are split one by one, with commas between them. -/
theorem Spells.commaSep {parts : List (List Char)} {toks : List (List Token)}
    (h : List.Forall₂ Spells parts toks) : Spells (Text.commaSep parts) (Token.commaSep toks) := by
  induction h with
  | nil => exact spells_nil
  | cons hpart hparts ih =>
    cases hparts with
    | nil => exact hpart
    | cons hnext hparts =>
      rw [Text.commaSep, joinWith_cons_cons, List.append_assoc]
      exact hpart.then_sym (by decide) ih.blank

end Token

end Generics
