import Generics.Const.Token
import Generics.Lists
import Generics.Proofs.Except
import Generics.Text.Quoted

/-!
# Texts and tokens of const expressions

Two relations between the bytes of a text and tokens. `Lexes` says what the scanner does with the
bytes, whatever stands after them: an integer or a name would go on into a letter, a digit or an
underscore, so the text after it may not start with one of these. Blanks, quotes and operators end
every token before them. `Spells` says what tokens look like, without the order in which the scanner
tries the kinds of tokens.

## Main results

* `Token.lexes_int`, `Token.lexes_string`, `Token.lexes_bool`: the tokens that are operands;
* `Token.Lexes.append_mark`: one text after another;
* `Token.spells_of_scan`: what the scanner accepts is spelled that way.
-/

namespace Generics.Const.Token

open Text

/-! ## Bytes -/

/-- A byte and its character have the same number. -/
theorem toNat_charOf (b : UInt8) : (charOf b).toNat = b.toNat := by
  have hb : b.toNat < 256 := b.toNat_lt
  have hvalid : b.toNat.isValidChar := .inl (by omega)
  rw [charOf, Char.ofNat, dif_pos hvalid]
  rfl

/-- Which byte a character is. -/
theorem charOf_eq_iff {b : UInt8} {c : Char} : charOf b = c ↔ b.toNat = c.toNat := by
  rw [← toNat_charOf, Char.toNat_inj]

/-- The characters that end an integer or a name before them. -/
def marks : List Char := ' ' :: '\t' :: '\n' :: '"' :: operators

/-- A mark is part of no integer or name. -/
theorem kinds_of_mark {b : UInt8} (h : charOf b ∈ marks) :
    isIntByte b = false ∧ isWordByte b = false := by
  -- the tables of letters and digits are searched once for each mark
  have hall : marks.all (fun c =>
      !(c.isDigit || c = '_') && !((c = '_' || isLetter c) || isDigit c)) = true := by
    decide +kernel
  have hkinds := List.all_eq_true.mp hall (charOf b) h
  rw [Bool.and_eq_true, Bool.not_eq_true', Bool.not_eq_true'] at hkinds
  exact hkinds

/-- No mark is a digit. -/
theorem isDigitByte_of_mark {b : UInt8} (h : charOf b ∈ marks) : isDigitByte b = false :=
  (Bool.or_eq_false_iff.mp (kinds_of_mark h).1).1

/-- No mark starts a word. -/
theorem isWordStart_of_mark {b : UInt8} (h : charOf b ∈ marks) : isWordStart b = false :=
  (Bool.or_eq_false_iff.mp (kinds_of_mark h).2).1

/-- Blanks are marks. -/
theorem mem_marks_of_isSpace {b : UInt8} (h : isSpace b = true) : charOf b ∈ marks := by
  simp only [isSpace, Bool.or_eq_true, decide_eq_true_eq] at h
  rcases h with (h | h) | h
  · simp [marks, h]
  · simp [marks, h]
  · simp [marks, h]

theorem mem_marks_of_operator {b : UInt8} (h : charOf b ∈ operators) : charOf b ∈ marks :=
  List.mem_append_right [' ', '\t', '\n', '"'] h

/-! ## The scanner by the first byte -/

/-- Blanks are passed over. -/
theorem scan_blank {b : UInt8} (h : isSpace b = true) (bs : List UInt8) :
    scan (b :: bs) = scan bs := by
  rw [scan, if_pos h]

/-- An integer goes on for as long as digits and underscores follow. -/
theorem scan_digit {b : UInt8} (h : isDigitByte b = true) (bs : List UInt8) :
    scan (b :: bs) = (scan (bs.dropWhile isIntByte)).map
      (.int (((b :: bs.takeWhile isIntByte).filter isDigitByte).map charOf) :: ·) := by
  have hspace : ¬isSpace b = true := fun hb =>
    Bool.false_ne_true ((isDigitByte_of_mark (mem_marks_of_isSpace hb)).symm.trans h)
  rw [scan, if_neg hspace, if_pos h]
  cases scan (bs.dropWhile isIntByte) <;> rfl

/-- A quote starts a string, up to where the string ends. -/
theorem scan_quote {b : UInt8} (h : charOf b = '"') {bs body rest : List UInt8}
    (hspan : spanString bs = some (body, rest)) :
    scan (b :: bs) = (scan rest).map (.string body :: ·) := by
  have hspace : ¬isSpace b = true := by simp [isSpace, h]
  have hdigit : ¬isDigitByte b = true := by simp [isDigitByte, h]
  rw [scan, if_neg hspace, if_neg hdigit, if_pos h]
  split
  case h_1 hnone => simp [hspan] at hnone
  case h_2 body' rest' hsome =>
    obtain ⟨rfl, rfl⟩ : body = body' ∧ rest = rest' := by simpa [hspan] using hsome
    cases scan rest <;> rfl

/-- A word goes on as long as its bytes do. -/
theorem scan_word {b : UInt8} (hspace : isSpace b = false) (hdigit : isDigitByte b = false)
    (hquote : charOf b ≠ '"') (h : isWordStart b = true) (bs : List UInt8) :
    scan (b :: bs) = (scan (bs.dropWhile isWordByte)).map
      (.word (b :: bs.takeWhile isWordByte) :: ·) := by
  rw [scan, if_neg (by simp [hspace]), if_neg (by simp [hdigit]), if_neg hquote, if_pos h]
  cases scan (bs.dropWhile isWordByte) <;> rfl

/-- An operator is a token of its own. -/
theorem scan_operator {b : UInt8} (h : charOf b ∈ operators) (bs : List UInt8) :
    scan (b :: bs) = (scan bs).map (.op (charOf b) :: ·) := by
  -- operators come last, so every other kind has to be ruled out
  have hmark := mem_marks_of_operator h
  have hspace : ¬isSpace b = true := by
    have hall : operators.all (fun c => !(c = ' ' || c = '\t' || c = '\n')) = true := by decide
    have hb := List.all_eq_true.mp hall (charOf b) h
    rwa [Bool.not_eq_true', ← Bool.not_eq_true] at hb
  have hquote : charOf b ≠ '"' := by
    intro hb
    rw [hb] at h
    exact absurd h (by decide)
  rw [scan, if_neg hspace, if_neg (by simp [isDigitByte_of_mark hmark]), if_neg hquote,
    if_neg (by simp [isWordStart_of_mark hmark]), if_pos (List.contains_iff_mem.mpr h)]
  cases scan bs <;> rfl

/-! ## String literals

The scanner cuts a string literal at the first quote that is not after a backslash. The bytes that
an escape takes after its letter are digits, so reading the literal and cutting it agree on the
quote. -/

/-- A byte that is neither the end of a string literal nor the start of an escape. -/
def IsPlain (b : UInt8) : Prop := charOf b ≠ '"' ∧ charOf b ≠ '\\'

/-- Plain bytes belong to the string. -/
theorem spanString_plain {ds : List UInt8} (h : ∀ d ∈ ds, IsPlain d) (bs : List UInt8) :
    spanString (ds ++ bs) = (spanString bs).map fun r => (ds ++ r.1, r.2) := by
  induction ds with
  | nil => simp
  | cons d ds ih =>
    obtain ⟨hd, hds⟩ := List.forall_mem_cons.mp h
    rw [List.cons_append, spanString.eq_def]
    simp only [if_neg hd.1, if_neg hd.2, ih hds, Option.map_map]
    rfl

/-- So does the byte after a backslash, whatever it is. -/
theorem spanString_escape {b : UInt8} (hb : charOf b = '\\') (e : UInt8) (bs : List UInt8) :
    spanString (b :: e :: bs) = (spanString bs).map fun r => (b :: e :: r.1, r.2) := by
  rw [spanString, if_neg (by simp [hb]), if_pos hb]

/-- Digits of an escape are plain. -/
theorem isPlain_of_hexDigit? {b : UInt8} (h : (Quoted.hexDigit? b).isSome = true) : IsPlain b := by
  have hne : b.toNat ≠ 34 ∧ b.toNat ≠ 92 := by
    simp only [Quoted.hexDigit?, UInt8.le_iff_toNat_le] at h
    grind
  exact ⟨fun hb => hne.1 (charOf_eq_iff.mp hb), fun hb => hne.2 (charOf_eq_iff.mp hb)⟩

/-- Every octal digit is a hexadecimal one. -/
theorem hexDigit?_of_octalDigit? {b : UInt8} (h : (Quoted.octalDigit? b).isSome = true) :
    (Quoted.hexDigit? b).isSome = true := by
  simp only [Quoted.octalDigit?, Quoted.hexDigit?, UInt8.le_iff_toNat_le] at h ⊢
  grind

/-- Reading digits takes as many bytes as were asked for, and all are digits. -/
theorem exists_digits_of_readDigits {digit? : UInt8 → Option Nat} {base count value n : Nat}
    {bs rest : List UInt8} (h : Quoted.readDigits digit? base count value bs = some (n, rest)) :
    ∃ ds, bs = ds ++ rest ∧ ds.length = count ∧ ∀ d ∈ ds, (digit? d).isSome = true := by
  induction count generalizing value bs with
  | zero =>
    obtain ⟨-, rfl⟩ : value = n ∧ bs = rest := by simpa [Quoted.readDigits] using h
    exact ⟨[], rfl, rfl, by simp⟩
  | succ count ih =>
    cases bs with
    | nil => simp [Quoted.readDigits] at h
    | cons b bs =>
      simp only [Quoted.readDigits, Option.bind_eq_bind, Option.bind_eq_some_iff] at h
      obtain ⟨d, hd, h⟩ := h
      obtain ⟨ds, rfl, rfl, hds⟩ := ih h
      exact ⟨b :: ds, rfl, rfl, List.forall_mem_cons.mpr ⟨by simp [hd], hds⟩⟩

/-- What an escape reads after its first byte: nothing, hexadecimal digits, or octal digits of which
the first byte is one. -/
theorem escape?_cases {e : UInt8} {bs out rest : List UInt8}
    (h : Quoted.escape? e bs = some (out, rest)) :
    bs = rest ∨ (∃ count n, Quoted.readDigits Quoted.hexDigit? 16 count 0 bs = some (n, rest)) ∨
      ∃ n, Quoted.readDigits Quoted.octalDigit? 8 3 0 (e :: bs) = some (n, rest) := by
  unfold Quoted.escape? at h
  split at h
  case h_1 => exact .inl (congrArg Prod.snd (Option.some.inj h))
  case h_2 =>
    simp only [Option.bind_eq_bind, Option.pure_def] at h
    split at h
    case isTrue => exact .inl (congrArg Prod.snd (Option.some.inj h))
    case isFalse =>
      -- two, four and eight hexadecimal digits, then octal digits
      repeat' split at h
      all_goals obtain ⟨⟨n, after⟩, hread, h⟩ := Option.bind_eq_some_iff.mp h
      · cases h
        exact .inr (.inl ⟨2, n, hread⟩)
      · obtain ⟨_, -, h⟩ := Option.bind_eq_some_iff.mp h
        cases h
        exact .inr (.inl ⟨4, n, hread⟩)
      · obtain ⟨_, -, h⟩ := Option.bind_eq_some_iff.mp h
        cases h
        exact .inr (.inl ⟨8, n, hread⟩)
      · split at h
        case isTrue =>
          cases h
          exact .inr (.inr ⟨n, hread⟩)
        case isFalse => cases h

/-- An escape takes only plain bytes after the first. -/
theorem exists_plain_of_escape? {e : UInt8} {bs out rest : List UInt8}
    (h : Quoted.escape? e bs = some (out, rest)) : ∃ ds, bs = ds ++ rest ∧ ∀ d ∈ ds, IsPlain d := by
  rcases escape?_cases h with rfl | ⟨count, n, hread⟩ | ⟨n, hread⟩
  · exact ⟨[], rfl, by simp⟩
  · obtain ⟨ds, hbs, -, hds⟩ := exists_digits_of_readDigits hread
    exact ⟨ds, hbs, fun d hd => isPlain_of_hexDigit? (hds d hd)⟩
  · obtain ⟨ds, hbs, hlen, hds⟩ := exists_digits_of_readDigits hread
    -- the first of the three digits is the byte of the escape itself
    obtain ⟨d, ds, rfl⟩ := List.exists_cons_of_length_eq_add_one hlen
    obtain ⟨-, rfl⟩ := List.cons_eq_cons.mp hbs
    exact ⟨ds, rfl, fun d hd =>
      isPlain_of_hexDigit? (hexDigit?_of_octalDigit? (hds d (List.mem_cons_of_mem _ hd)))⟩

/-- A literal that can be read is cut at its closing quote. -/
theorem spanString_of_decode {body bytes : List UInt8} (h : Quoted.decode body = some bytes)
    {c : UInt8} (hc : charOf c = '"') (rest : List UInt8) :
    spanString (body ++ c :: rest) = some (body, rest) := by
  fun_induction Quoted.decode body generalizing bytes with
  | case1 =>
    rw [List.nil_append, spanString.eq_def]
    simp only [if_pos hc]
  | case2 b hb => cases h
  | case3 => cases h
  | case4 b hb e bs out after hescape ih =>
    obtain ⟨_, hafter, -⟩ := Option.map_eq_some_iff.mp h
    obtain ⟨ds, rfl, hds⟩ := exists_plain_of_escape? hescape
    -- the cut skips the byte after the backslash, and then the digits one by one
    rw [List.cons_append, List.cons_append, spanString_escape (charOf_eq_iff.mpr hb),
      List.append_assoc, spanString_plain hds, ih hafter]
    rfl
  | case5 => cases h
  | case6 b bs hb hquote ih =>
    obtain ⟨_, hbs, -⟩ := Option.map_eq_some_iff.mp h
    have hplain : IsPlain b :=
      ⟨fun hb => hquote (.inl (charOf_eq_iff.mp hb)), fun hb' => hb (charOf_eq_iff.mp hb')⟩
    rw [List.cons_append, ← List.singleton_append,
      spanString_plain (List.forall_mem_singleton.mpr hplain), ih hbs]
    rfl

/-- What is cut off ends with a quote. -/
theorem eq_append_of_spanString {bs body rest : List UInt8}
    (h : spanString bs = some (body, rest)) :
    ∃ c, charOf c = '"' ∧ bs = body ++ c :: rest := by
  fun_induction spanString bs generalizing body rest with
  | case1 => cases h
  | case2 b bs hb =>
    cases h
    exact ⟨b, hb, rfl⟩
  | case3 => cases h
  | case4 b c bs hb hq ih =>
    obtain ⟨⟨body, after⟩, hspan, heq⟩ := Option.map_eq_some_iff.mp h
    cases heq
    obtain ⟨c', hc', rfl⟩ := ih hspan
    exact ⟨c', hc', rfl⟩
  | case5 b bs hq hb ih =>
    obtain ⟨⟨body, after⟩, hspan, heq⟩ := Option.map_eq_some_iff.mp h
    cases heq
    obtain ⟨c', hc', rfl⟩ := ih hspan
    exact ⟨c', hc', rfl⟩

/-! ## What the scanner makes of a text -/

/-- No integer or name goes on into the text. -/
def Stops (rest : List UInt8) : Prop :=
  ∀ b, rest.head? = some b → isIntByte b = false ∧ isWordByte b = false

/-- The bytes are scanned as the tokens, whatever stands after them. -/
def Lexes (bs : List UInt8) (ts : List Token) : Prop :=
  ∀ rest, Stops rest → scan (bs ++ rest) = (scan rest).map (ts ++ ·)

theorem stops_nil : Stops [] := by
  rintro b ⟨⟩

/-- No token goes on with a mark. -/
theorem stops_mark {b : UInt8} (h : charOf b ∈ marks) (rest : List UInt8) : Stops (b :: rest) := by
  rintro b' ⟨⟩
  exact kinds_of_mark h

/-- Alone, the bytes are split into the tokens. -/
theorem Lexes.scan_eq {bs : List UInt8} {ts : List Token} (h : Lexes bs ts) : scan bs = .ok ts := by
  have hscan := h [] stops_nil
  rw [List.append_nil, scan] at hscan
  rw [hscan]
  exact congrArg Except.ok (List.append_nil ts)

theorem lexes_nil : Lexes [] [] := by
  intro rest _
  rw [List.nil_append]
  cases scan rest <;> rfl

/-- A digit and the bytes that go on from it are one number. -/
theorem lexes_int {b : UInt8} {bs : List UInt8} (hb : isDigitByte b = true)
    (hbs : ∀ c ∈ bs, isIntByte c = true) :
    Lexes (b :: bs) [.int (((b :: bs).filter isDigitByte).map charOf)] := by
  intro rest hrest
  obtain ⟨htake, hdrop⟩ := takeWhile_append_of_all (List.all_eq_true.mpr hbs) fun c hc => (hrest c hc).1
  rw [List.cons_append, scan_digit hb, htake, hdrop]
  rfl

/-- Bytes in quotes that can be decoded are one string. -/
theorem lexes_string {b c : UInt8} {body bytes : List UInt8} (hb : charOf b = '"')
    (hc : charOf c = '"') (h : Quoted.decode body = some bytes) :
    Lexes (b :: (body ++ [c])) [.string body] := by
  intro rest _
  rw [List.cons_append, List.append_assoc, List.singleton_append,
    scan_quote hb (spanString_of_decode h hc rest)]
  rfl

/-- The names of the truth values are words. -/
theorem lexes_bool (value : Bool) :
    Lexes (Utf8.ofText (toString value)) [.word (Utf8.ofText (toString value))] := by
  have hkinds : ∃ b bs, Utf8.ofText (toString value) = b :: bs ∧ isSpace b = false ∧
      isDigitByte b = false ∧ charOf b ≠ '"' ∧ isWordStart b = true ∧
      ∀ c ∈ bs, isWordByte c = true := by
    -- the bytes of the two names
    cases value with
    | true => exact ⟨116, [114, 117, 101], by decide +kernel⟩
    | false => exact ⟨102, [97, 108, 115, 101], by decide +kernel⟩
  obtain ⟨b, bs, heq, hspace, hdigit, hquote, hstart, hbs⟩ := hkinds
  rw [heq]
  intro rest hrest
  obtain ⟨htake, hdrop⟩ := takeWhile_append_of_all (List.all_eq_true.mpr hbs) fun c hc => (hrest c hc).2
  rw [List.cons_append, scan_word hspace hdigit hquote hstart, htake, hdrop]
  rfl

namespace Lexes

/-- A blank in front changes nothing. -/
theorem blank {b : UInt8} (hb : isSpace b = true) {bs : List UInt8} {ts : List Token}
    (h : Lexes bs ts) : Lexes (b :: bs) ts := by
  intro rest hrest
  rw [List.cons_append, scan_blank hb, h rest hrest]

/-- An operator in front is one more token. -/
theorem operator {b : UInt8} (hb : charOf b ∈ operators) {bs : List UInt8} {ts : List Token}
    (h : Lexes bs ts) : Lexes (b :: bs) (.op (charOf b) :: ts) := by
  intro rest hrest
  rw [List.cons_append, scan_operator hb, h rest hrest]
  cases scan rest <;> rfl

/-- A text that starts with a mark can stand after any other. -/
theorem append_mark {as bs : List UInt8} {b : UInt8} {ts us : List Token} (h : Lexes as ts)
    (hb : charOf b ∈ marks) (h' : Lexes (b :: bs) us) : Lexes (as ++ b :: bs) (ts ++ us) := by
  intro rest hrest
  have hstops : Stops (b :: bs ++ rest) := stops_mark hb (bs ++ rest)
  rw [List.append_assoc, h _ hstops, h' rest hrest]
  cases scan rest with
  | error f => rfl
  | ok vs => exact congrArg Except.ok (List.append_assoc ts us vs).symm

end Lexes

/-! ## What tokens look like -/

/-- The bytes of one token. -/
inductive Spelled : List UInt8 → Token → Prop
  | int {b : UInt8} {bs : List UInt8} (hb : isDigitByte b = true)
      (hbs : ∀ c ∈ bs, isIntByte c = true) :
      Spelled (b :: bs) (.int (((b :: bs).filter isDigitByte).map charOf))
  | string {b c : UInt8} (body : List UInt8) (hb : charOf b = '"') (hc : charOf c = '"') :
      Spelled (b :: (body ++ [c])) (.string body)
  | word (name : List UInt8) : Spelled name (.word name)
  | op (b : UInt8) : Spelled [b] (.op (charOf b))

/-- The bytes of tokens with blanks between them. -/
inductive Spells : List UInt8 → List Token → Prop
  | nil : Spells [] []
  | blank {b : UInt8} {bs : List UInt8} {ts : List Token} (hb : isSpace b = true)
      (h : Spells bs ts) : Spells (b :: bs) ts
  | token {as bs : List UInt8} {tok : Token} {ts : List Token} (htok : Spelled as tok)
      (h : Spells bs ts) : Spells (as ++ bs) (tok :: ts)

namespace Spells

variable {bs : List UInt8}

/-- Blanks in front change nothing. -/
theorem blanks {blanks : List UInt8} (hblanks : ∀ b ∈ blanks, isSpace b = true) {ts : List Token}
    (h : Spells bs ts) : Spells (blanks ++ bs) ts := by
  induction blanks with
  | nil => exact h
  | cons b blanks ih =>
    obtain ⟨hb, hblanks⟩ := List.forall_mem_cons.mp hblanks
    exact .blank hb (ih hblanks)

/-- Only blanks spell no token. -/
theorem isSpace_of_nil {ts : List Token} (h : Spells bs ts) (hts : ts = []) :
    ∀ b ∈ bs, isSpace b = true := by
  induction h with
  | nil => simp
  | blank hb _ ih => exact List.forall_mem_cons.mpr ⟨hb, ih hts⟩
  | token => cases hts

/-- The first token stands after blanks. -/
theorem exists_of_cons {tok : Token} {ts us : List Token} (h : Spells bs us)
    (hus : us = tok :: ts) :
    ∃ blanks as rest, bs = blanks ++ (as ++ rest) ∧ (∀ b ∈ blanks, isSpace b = true) ∧
      Spelled as tok ∧ Spells rest ts := by
  induction h with
  | nil => cases hus
  | @blank b bs us hb _ ih =>
    obtain ⟨blanks, as, rest, rfl, hblanks, has, hrest⟩ := ih hus
    exact ⟨b :: blanks, as, rest, rfl, List.forall_mem_cons.mpr ⟨hb, hblanks⟩, has, hrest⟩
  | @token as bs tok us htok h _ =>
    cases hus
    exact ⟨[], as, bs, rfl, by simp, htok, h⟩

/-- An operator is one byte after blanks. -/
theorem exists_of_op {c : Char} {ts : List Token} (h : Spells bs (.op c :: ts)) :
    ∃ blanks b rest, bs = blanks ++ b :: rest ∧ (∀ b ∈ blanks, isSpace b = true) ∧ charOf b = c ∧
      Spells rest ts := by
  obtain ⟨blanks, as, rest, rfl, hblanks, has, hrest⟩ := h.exists_of_cons rfl
  cases has with
  | op b => exact ⟨blanks, b, rest, rfl, hblanks, rfl, hrest⟩

/-- A text is cut where its tokens are. -/
theorem exists_of_append {us vs : List Token} (h : Spells bs (us ++ vs)) :
    ∃ as cs, bs = as ++ cs ∧ Spells as us ∧ Spells cs vs := by
  induction us generalizing bs with
  | nil => exact ⟨[], bs, rfl, .nil, h⟩
  | cons tok us ih =>
    obtain ⟨blanks, as, rest, rfl, hblanks, has, hrest⟩ := h.exists_of_cons rfl
    obtain ⟨bs, cs, rfl, hbs, hcs⟩ := ih hrest
    exact ⟨blanks ++ (as ++ bs), cs, by simp, (Spells.token has hbs).blanks hblanks, hcs⟩

end Spells

/-- What the scanner accepts is spelled with blanks between the tokens. -/
theorem spells_of_scan {bs : List UInt8} {ts : List Token} (h : scan bs = .ok ts) :
    Spells bs ts := by
  fun_induction scan bs generalizing ts with
  | case1 =>
    cases h
    exact .nil
  | case2 b bs hspace ih => exact .blank hspace (ih h)
  | case3 b bs hspace hdigit ih =>
    obtain ⟨rest, hscan, heq⟩ := exists_ok_of_bind_eq_ok h
    cases heq
    have hbs : ∀ c ∈ bs.takeWhile isIntByte, isIntByte c = true :=
      List.all_eq_true.mp List.all_takeWhile
    have hspells := Spells.token (Spelled.int hdigit hbs) (ih hscan)
    rwa [List.cons_append, List.takeWhile_append_dropWhile] at hspells
  | case4 => cases h
  | case5 b bs hspace hdigit hquote body after hspan ih =>
    obtain ⟨rest, hscan, heq⟩ := exists_ok_of_bind_eq_ok h
    cases heq
    -- the cut gives the closing quote back
    obtain ⟨c, hc, rfl⟩ := eq_append_of_spanString hspan
    have hspells := Spells.token (Spelled.string body hquote hc) (ih hscan)
    rwa [List.cons_append, List.append_assoc, List.singleton_append] at hspells
  | case6 b bs hspace hdigit hquote hstart ih =>
    obtain ⟨rest, hscan, heq⟩ := exists_ok_of_bind_eq_ok h
    cases heq
    have hspells := Spells.token (Spelled.word (b :: bs.takeWhile isWordByte)) (ih hscan)
    rwa [List.cons_append, List.takeWhile_append_dropWhile] at hspells
  | case7 b bs hspace hdigit hquote hstart hop ih =>
    obtain ⟨rest, hscan, heq⟩ := exists_ok_of_bind_eq_ok h
    cases heq
    exact .token (.op b) (ih hscan)
  | case8 => cases h

end Generics.Const.Token
