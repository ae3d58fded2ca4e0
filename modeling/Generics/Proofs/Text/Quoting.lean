import Generics.Text.Quoted
import Mathlib.Data.String.Basic

/-!
# Quoting and reading back

A byte string in quotes is read back as the same byte string. The bytes are cut into characters and
stray bytes, and nothing is lost by that: the pieces, written as bytes again, are the string. Each
piece is written in one of several ways, and reading undoes each of them, whatever is written after
it. What stands for itself holds no quote, backslash or line end, also not as a byte of a longer
sequence; an escape with digits has a fixed number of them.

## Main results

* `Utf8.flatMap_bytes_pieces`: the pieces of a byte string are all of it;
* `Quoted.readDigits_hexPadded`: digits are read as the number they were written for;
* `Quoted.decode_encodePiece`: one piece is read back;
* `Quoted.decode_body`: a whole byte string is read back.
-/

namespace Generics.Text

/-- The bytes of a piece. -/
def Piece.bytes : Piece → List UInt8
  | .char c => String.utf8EncodeChar c
  | .stray b => [b]

namespace Utf8

/-! ## Bytes of texts -/

/-- The bytes of characters. -/
def ofChars (cs : List Char) : List UInt8 := cs.flatMap String.utf8EncodeChar

theorem ofChars_append (cs ds : List Char) : ofChars (cs ++ ds) = ofChars cs ++ ofChars ds :=
  List.flatMap_append

/-- Bytes are listed from the place that the list has come to. -/
theorem loop_toByteArray (front bs acc : List UInt8) :
    ByteArray.toList.loop (front ++ bs).toByteArray front.length acc = acc.reverse ++ bs := by
  -- on what is still to be listed; the front grows by each byte that was
  induction bs generalizing front acc with
  | nil =>
    rw [ByteArray.toList.loop, if_neg (by simp), List.append_nil]
  | cons b bs ih =>
    have hget : (front ++ b :: bs).toByteArray.get! front.length = b := by
      simp [ByteArray.get!]
    have hnext := ih (front ++ [b]) (b :: acc)
    rw [List.append_assoc, List.singleton_append, List.length_append,
      List.length_singleton] at hnext
    rw [ByteArray.toList.loop, if_pos (by simp), hget, hnext]
    simp

/-- The bytes of a text are those of its characters. -/
theorem ofText_ofList (cs : List Char) : ofText (String.ofList cs) = ofChars cs :=
  loop_toByteArray [] (ofChars cs) []

/-- The byte of an ASCII character. -/
def byteOf (c : Char) : UInt8 := UInt8.ofNat c.toNat

/-- The byte of an ASCII character has its number. -/
theorem toNat_byteOf {c : Char} (h : c.toNat < 128) : (byteOf c).toNat = c.toNat :=
  (UInt8.toNat_ofNat' ..).trans (Nat.mod_eq_of_lt (Nat.lt_trans h (by decide)))

/-- An ASCII character is one byte. -/
theorem utf8EncodeChar_of_lt {c : Char} (h : c.toNat < 128) :
    String.utf8EncodeChar c = [byteOf c] := by
  have hle : c.val.toNat ≤ 127 := Nat.le_of_lt_succ h
  rw [String.utf8EncodeChar, if_pos hle]
  rfl

/-- An ASCII character in front is one more byte. -/
theorem ofChars_cons_of_lt {c : Char} (h : c.toNat < 128) (cs : List Char) :
    ofChars (c :: cs) = byteOf c :: ofChars cs := by
  rw [ofChars, List.flatMap_cons, utf8EncodeChar_of_lt h]
  rfl

/-- A character above the ASCII range has no byte inside it. -/
theorem le_of_mem_utf8EncodeChar {c : Char} (h : 128 ≤ c.toNat) {b : UInt8}
    (hb : b ∈ String.utf8EncodeChar c) : 128 ≤ b.toNat := by
  have hle : ¬ c.val.toNat ≤ 127 := Nat.not_le.mpr h
  rw [String.utf8EncodeChar, if_neg hle] at hb
  split at hb
  · simp only [List.mem_cons, List.not_mem_nil, or_false] at hb
    rcases hb with rfl | rfl <;> rw [UInt8.toNat_ofNat'] <;> omega
  · split at hb
    · simp only [List.mem_cons, List.not_mem_nil, or_false] at hb
      rcases hb with rfl | rfl | rfl <;> rw [UInt8.toNat_ofNat'] <;> omega
    · simp only [List.mem_cons, List.not_mem_nil, or_false] at hb
      rcases hb with rfl | rfl | rfl | rfl <;> rw [UInt8.toNat_ofNat'] <;> omega

/-! ## Pieces -/

theorem ofNat_eq {b : UInt8} {n : Nat} (h : n = b.toNat) : UInt8.ofNat n = b := by
  rw [h, UInt8.ofNat_toNat]

/-- A continuation byte carries six bits. -/
theorem toNat_of_tail? {b : UInt8} {n : Nat} (h : tail? b = some n) :
    b.toNat = n + 0x80 ∧ n < 64 := by
  rw [tail?, Option.ite_none_right_eq_some] at h
  obtain ⟨⟨hlow, hhigh⟩, hn⟩ := h
  rw [UInt8.le_iff_toNat_le] at hlow
  rw [UInt8.lt_iff_toNat_lt] at hhigh
  have hlow' : 128 ≤ b.toNat := hlow
  have hhigh' : b.toNat < 192 := hhigh
  obtain rfl := Option.some.inj hn
  omega

/-- A continuation byte is made from its payload again. -/
theorem ofNat_of_tail? {b : UInt8} {n m : Nat} (h : tail? b = some n) (hm : m = n) :
    UInt8.ofNat (m + 128) = b :=
  ofNat_eq (by rw [hm, (toNat_of_tail? h).1])

/-- A character has the code that it was made of. -/
theorem toNat_ofNat {code : Nat} (h : code.isValidChar) : (Char.ofNat code).toNat = code := by
  have hchar : Char.ofNat code = Char.ofNatAux code h := dif_pos h
  rw [hchar]
  rfl

/-- A character that is made of a code has this code, which is not below the least. -/
theorem toNat_of_char? {least code : Nat} {c : Char} (h : char? least code = some c) :
    least ≤ code ∧ c.toNat = code := by
  rw [char?, Option.ite_none_right_eq_some] at h
  obtain ⟨⟨hleast, hvalid⟩, hc⟩ := h
  obtain rfl := Option.some.inj hc
  exact ⟨hleast, toNat_ofNat hvalid⟩

/-- The character of a sequence has the bytes that it was read from. -/
theorem eq_append_of_sequence? {b : UInt8} {bs rest : List UInt8} {c : Char}
    (h : sequence? b bs = some (c, rest)) : b :: bs = String.utf8EncodeChar c ++ rest := by
  unfold sequence? at h
  simp only [UInt8.lt_iff_toNat_lt, UInt8.reduceToNat, Option.bind_eq_bind, Option.pure_def] at h
  -- by the length of the sequence; in each case the payloads are the digits of the code in base 64
  split at h
  · obtain ⟨rfl, rfl⟩ := Prod.mk.inj (Option.some.inj h)
    have hc : (Char.ofNat b.toNat).toNat = b.toNat := toNat_ofNat (.inl (by omega))
    rw [utf8EncodeChar_of_lt (by omega), byteOf, ofNat_eq hc]
    rfl
  all_goals
    repeat' split at h
    all_goals simp only [reduceCtorEq, Option.bind_eq_some_iff] at h
  · obtain ⟨t, ht, c', hc', heq⟩ := h
    obtain ⟨rfl, rfl⟩ := Prod.mk.inj (Option.some.inj heq)
    obtain ⟨-, ht'⟩ := toNat_of_tail? ht
    obtain ⟨hleast, hcode⟩ := toNat_of_char? hc'
    have hval : c'.val.toNat = _ := hcode
    rw [String.utf8EncodeChar, if_neg (by omega), if_pos (by omega), ofNat_eq (b := b) (by omega),
      ofNat_of_tail? ht (by omega)]
    rfl
  · obtain ⟨t, ht, u, hu, c', hc', heq⟩ := h
    obtain ⟨rfl, rfl⟩ := Prod.mk.inj (Option.some.inj heq)
    obtain ⟨-, ht'⟩ := toNat_of_tail? ht
    obtain ⟨-, hu'⟩ := toNat_of_tail? hu
    obtain ⟨hleast, hcode⟩ := toNat_of_char? hc'
    have hval : c'.val.toNat = _ := hcode
    rw [String.utf8EncodeChar, if_neg (by omega), if_neg (by omega), if_pos (by omega),
      ofNat_eq (b := b) (by omega), ofNat_of_tail? ht (by omega), ofNat_of_tail? hu (by omega)]
    rfl
  · obtain ⟨t, ht, u, hu, v, hv, c', hc', heq⟩ := h
    obtain ⟨rfl, rfl⟩ := Prod.mk.inj (Option.some.inj heq)
    obtain ⟨-, ht'⟩ := toNat_of_tail? ht
    obtain ⟨-, hu'⟩ := toNat_of_tail? hu
    obtain ⟨-, hv'⟩ := toNat_of_tail? hv
    obtain ⟨hleast, hcode⟩ := toNat_of_char? hc'
    have hval : c'.val.toNat = _ := hcode
    rw [String.utf8EncodeChar, if_neg (by omega), if_neg (by omega), if_neg (by omega),
      ofNat_eq (b := b) (by omega), ofNat_of_tail? ht (by omega), ofNat_of_tail? hu (by omega),
      ofNat_of_tail? hv (by omega)]
    rfl

/-- Nothing of a byte string is lost when it is cut into pieces. -/
theorem flatMap_bytes_pieces (bs : List UInt8) : (pieces bs).flatMap Piece.bytes = bs := by
  induction bs using pieces.induct with
  | case1 => rw [pieces, List.flatMap_nil]
  | case2 b bs ih =>
    have hfirst : (first b bs).1.bytes ++ (first b bs).2 = b :: bs := by
      rw [first]
      split
      · rename_i hc
        exact (eq_append_of_sequence? hc).symm
      · rfl
    rw [pieces, List.flatMap_cons, ih, hfirst]

end Utf8

namespace Quoted

open Utf8

/-! ## Digits -/

/-- The last digit is the remainder, and the padding is all before it. -/
theorem hexPadded_succ {width : Nat} (hwidth : 0 < width) (n : Nat) :
    hexPadded (width + 1) n = hexPadded width (n / 16) ++ [(n % 16).digitChar] := by
  rw [hexPadded, hexPadded]
  by_cases hn : n < 16
  -- a single digit has a padding that stands for the digit zero of the rest
  · obtain ⟨k, rfl⟩ := Nat.exists_eq_add_one.mpr hwidth
    rw [Nat.toDigits_of_lt_base hn, Nat.mod_eq_of_lt hn, Nat.div_eq_of_lt hn,
      Nat.toDigits_of_lt_base (by decide)]
    simp [List.replicate_succ']
  · rw [Nat.toDigits_of_base_le (by decide) (Nat.not_lt.mp hn), List.length_append,
      List.length_singleton, Nat.add_sub_add_right, List.append_assoc]

/-- Some digits are read, and then the others. -/
theorem readDigits_add (digit? : UInt8 → Option Nat) (base m k value : Nat) (bs : List UInt8) :
    readDigits digit? base (m + k) value bs =
      (readDigits digit? base m value bs).bind fun r => readDigits digit? base k r.1 r.2 := by
  induction m generalizing value bs with
  | zero =>
    rw [Nat.zero_add, readDigits]
    rfl
  | succ m ih =>
    rw [Nat.succ_add]
    cases bs with
    | nil => rfl
    | cons b bs =>
      rw [readDigits, readDigits]
      cases digit? b with
      | none => rfl
      | some d => exact ih (value * base + d) bs

/-- One hexadecimal digit is read back. -/
theorem readDigits_digitChar {d : Nat} (hd : d < 16) (value : Nat) (rest : List UInt8) :
    readDigits hexDigit? 16 1 value (ofChars [d.digitChar] ++ rest) =
      some (value * 16 + d, rest) := by
  have hall : ∀ d < 16, d.digitChar.toNat < 128 ∧
      hexDigit? (byteOf d.digitChar) = some d := by decide
  obtain ⟨hlt, hdigit⟩ := hall d hd
  rw [ofChars_cons_of_lt hlt, List.cons_append, readDigits, hdigit]
  rfl

/-- Digits are read as the number they were written for. -/
theorem readDigits_hexPadded {width n : Nat} (hwidth : 0 < width) (hn : n < 16 ^ width)
    (value : Nat) (rest : List UInt8) :
    readDigits hexDigit? 16 width value (ofChars (hexPadded width n) ++ rest) =
      some (value * 16 ^ width + n, rest) := by
  -- on the number of digits, of which the last one is written and read last
  induction width, hwidth using Nat.le_induction generalizing n rest with
  | base =>
    have hlt : n < 16 := hn
    have hpadded : hexPadded 1 n = [n.digitChar] := by
      rw [hexPadded, Nat.toDigits_of_lt_base hlt]
      rfl
    rw [hpadded]
    exact readDigits_digitChar hlt value rest
  | succ width hwidth ih =>
    have hhigh : n / 16 < 16 ^ width := Nat.div_lt_of_lt_mul (by rwa [Nat.mul_comm, ← Nat.pow_succ])
    have hsum : (value * 16 ^ width + n / 16) * 16 + n % 16 = value * 16 ^ (width + 1) + n := by
      rw [Nat.pow_succ, ← Nat.mul_assoc]
      omega
    rw [hexPadded_succ hwidth, ofChars_append, List.append_assoc, readDigits_add, ih hhigh,
      Option.bind_some, readDigits_digitChar (Nat.mod_lt _ (by decide)), hsum]

/-! ## Escapes -/

/-- An escape is read as what it stands for. -/
theorem decode_escape {e : Char} (he : e.toNat < 128) {ds : List Char} {out rest : List UInt8}
    (h : escape? (byteOf e) (ofChars ds ++ rest) = some (out, rest)) :
    decode (ofChars ('\\' :: e :: ds) ++ rest) = (decode rest).map (out ++ ·) := by
  rw [ofChars_cons_of_lt (by decide), ofChars_cons_of_lt he, List.cons_append, List.cons_append,
    decode, if_pos (by decide)]
  -- the escape is what `h` says, so the reader can not have stopped at it
  split
  · rename_i hnone
    rw [h] at hnone
    cases hnone
  · rename_i out' rest' hsome
    obtain ⟨rfl, rfl⟩ := Prod.mk.inj (Option.some.inj (h.symm.trans hsome))
    rfl

/-- Letters stand for control characters. -/
theorem escape?_letter {letter : Char} {byte : UInt8} (h : (letter, byte) ∈ letterEscapes)
    (rest : List UInt8) : escape? (byteOf letter) rest = some ([byte], rest) := by
  have hall : ∀ l ∈ letterEscapes,
      letterEscapes.find? (fun k => k.1.toNat = (byteOf l.1).toNat) = some l := by decide
  rw [escape?, hall _ h]

/-- A quote and a backslash stand for themselves. -/
theorem escape?_same {c : Char} (hc : c = '"' ∨ c = '\\') (rest : List UInt8) :
    escape? (byteOf c) rest = some ([byteOf c], rest) := by
  rcases hc with rfl | rfl <;> rfl

/-- A byte is read back from two digits. -/
theorem escape?_byte {n : Nat} (hn : n < 256) (rest : List UInt8) :
    escape? (byteOf 'x') (ofChars (hexPadded 2 n) ++ rest) = some ([UInt8.ofNat n], rest) := by
  have hread := readDigits_hexPadded (Nat.zero_lt_two) hn 0 rest
  rw [Nat.zero_mul, Nat.zero_add] at hread
  have hopen : ∀ bs, escape? (byteOf 'x') bs =
      (readDigits hexDigit? 16 2 0 bs).bind fun r => some ([UInt8.ofNat r.1], r.2) := fun _ => rfl
  rw [hopen, hread]
  rfl

/-- A character is read back from the digits of its code. -/
theorem escape?_codePoint {mark : Char} {width : Nat}
    (hmark : mark = 'u' ∧ width = 4 ∨ mark = 'U' ∧ width = 8) {c : Char}
    (hc : c.toNat < 16 ^ width) (rest : List UInt8) :
    escape? (byteOf mark) (ofChars (hexPadded width c.toNat) ++ rest) =
      some (String.utf8EncodeChar c, rest) := by
  have hread := readDigits_hexPadded (by omega) hc 0 rest
  rw [Nat.zero_mul, Nat.zero_add] at hread
  have hopen : ∀ bs, escape? (byteOf mark) bs = (readDigits hexDigit? 16 width 0 bs).bind fun r =>
      (codePoint? r.1).bind fun out => some (out, r.2) := by
    rcases hmark with ⟨rfl, rfl⟩ | ⟨rfl, rfl⟩ <;> exact fun _ => rfl
  -- the number is the code of a character, so that it is valid
  have hcode : codePoint? c.toNat = some (String.utf8EncodeChar c) := by
    rw [codePoint?, if_pos (show c.toNat.isValidChar from c.valid), Char.ofNat_toNat]
  rw [hopen, hread, Option.bind_some, hcode]
  rfl

/-! ## Pieces and byte strings -/

/-- Bytes that need no escape are read as they are. -/
theorem decode_plain {bs : List UInt8}
    (h : ∀ b ∈ bs, b.toNat ≠ '\\'.toNat ∧ b.toNat ≠ '"'.toNat ∧ b.toNat ≠ '\n'.toNat)
    (rest : List UInt8) : decode (bs ++ rest) = (decode rest).map (bs ++ ·) := by
  induction bs with
  | nil => simp
  | cons b bs ih =>
    obtain ⟨⟨hslash, hquote, hline⟩, hbs⟩ := List.forall_mem_cons.mp h
    rw [List.cons_append, decode.eq_def]
    simp only [if_neg hslash, if_neg (not_or.mpr ⟨hquote, hline⟩), ih hbs, Option.map_map]
    rfl

/-- The end of a line is not printable. -/
theorem ne_of_isPrintable {c : Char} (h : isPrintable c = true) : c ≠ '\n' := by
  rintro rfl
  exact absurd h (by decide +kernel)

/-- A printable character has no byte with a meaning of its own, unless it is one itself. -/
theorem plain_of_isPrintable {c : Char} (h : isPrintable c = true) (hc : ¬(c = '"' ∨ c = '\\'))
    {b : UInt8} (hb : b ∈ String.utf8EncodeChar c) :
    b.toNat ≠ '\\'.toNat ∧ b.toNat ≠ '"'.toNat ∧ b.toNat ≠ '\n'.toNat := by
  by_cases hascii : c.toNat < 128
  -- the only byte is the character itself, and above the ASCII range no byte is one of the three
  · rw [utf8EncodeChar_of_lt hascii, List.mem_singleton] at hb
    rw [hb, toNat_byteOf hascii]
    have hne : ∀ d : Char, c ≠ d → c.toNat ≠ d.toNat := fun d hd hnat => hd (Char.toNat_inj.mp hnat)
    exact ⟨hne _ (not_or.mp hc).2, hne _ (not_or.mp hc).1, hne _ (ne_of_isPrintable h)⟩
  · have hle := le_of_mem_utf8EncodeChar (Nat.not_lt.mp hascii) hb
    have hmarks : '\\'.toNat < 128 ∧ '"'.toNat < 128 ∧ '\n'.toNat < 128 := by decide
    omega

/-- A character is read back, escaped or not. -/
theorem decode_encodeChar (c : Char) (rest : List UInt8) :
    decode (ofChars (encodeChar c) ++ rest) =
      (decode rest).map (String.utf8EncodeChar c ++ ·) := by
  -- in the order of writing: a quote or backslash, what is printed, a letter, digits
  rw [encodeChar]
  split
  case isTrue hc =>
    have hascii : c.toNat < 128 := by rcases hc with rfl | rfl <;> decide
    rw [@decode_escape _ hascii [] _ _ (escape?_same hc rest), utf8EncodeChar_of_lt hascii]
  case isFalse hc =>
    split
    case isTrue hprintable =>
      rw [ofChars, List.flatMap_singleton, decode_plain fun b => plain_of_isPrintable hprintable hc]
    case isFalse =>
      split
      case h_1 letter byte hfind =>
        -- the byte of a letter is the character, whichever row of the table it was found in
        have hmem := List.mem_of_find?_eq_some hfind
        have hall : ∀ l ∈ letterEscapes, l.1.toNat < 128 ∧ l.2.toNat < 128 := by decide
        obtain ⟨hletter, hbyte⟩ := hall _ hmem
        have hcode : byte.toNat = c.toNat := by simpa using List.find?_some hfind
        rw [@decode_escape _ hletter [] _ _ (escape?_letter hmem rest),
          utf8EncodeChar_of_lt (hcode ▸ hbyte), byteOf, ofNat_eq hcode.symm]
      case h_2 =>
        split
        case isTrue hlow =>
          rw [decode_escape (by decide) (escape?_byte (by omega) rest),
            utf8EncodeChar_of_lt (by omega)]
          rfl
        case isFalse =>
          split
          case isTrue hshort =>
            exact decode_escape (by decide) (escape?_codePoint (.inl ⟨rfl, rfl⟩) hshort rest)
          case isFalse =>
            have hlong : c.toNat < 16 ^ 8 := c.val.toNat_lt
            exact decode_escape (by decide) (escape?_codePoint (.inr ⟨rfl, rfl⟩) hlong rest)

/-- A piece is read back, whatever is written after it. -/
theorem decode_encodePiece (p : Piece) (rest : List UInt8) :
    decode (ofChars (encodePiece p) ++ rest) = (decode rest).map (p.bytes ++ ·) := by
  cases p with
  | char c => exact decode_encodeChar c rest
  | stray b =>
    rw [encodePiece, decode_escape (by decide) (escape?_byte b.toNat_lt rest), UInt8.ofNat_toNat]
    rfl

/-- What is written between the quotes is read back. -/
theorem decode_body (bs : List UInt8) :
    decode (ofChars ((pieces bs).flatMap encodePiece)) = some bs := by
  have hpieces : ∀ ps : List Piece,
      decode (ofChars (ps.flatMap encodePiece)) = some (ps.flatMap Piece.bytes) := by
    intro ps
    induction ps with
    | nil => simp [ofChars, decode]
    | cons p ps ih =>
      rw [List.flatMap_cons, ofChars_append, decode_encodePiece, ih]
      rfl
  rw [hpieces, flatMap_bytes_pieces]

end Quoted

end Generics.Text
