import Generics.Text.Printable
import Generics.Text.Utf8

/-!
# Quoted texts

A byte string in double quotes. Printable characters stand for themselves; a quote and a backslash are
escaped, and all else is written as a letter escape, as a byte `\x..` or as a code point `\u....`.
Reading also accepts octal bytes and code points written in eight digits.
-/

namespace Generics.Text

/-- A number in hexadecimal with at least `width` digits. -/
def hexPadded (width n : Nat) : List Char :=
  let digits := Nat.toDigits 16 n
  List.replicate (width - digits.length) '0' ++ digits

/-- The bytes in hexadecimal, two digits each. -/
def hexBytes (bs : List UInt8) : List Char := bs.flatMap fun b => hexPadded 2 b.toNat

namespace Quoted

/-- The letter escapes: the letter and the byte it stands for. -/
def letterEscapes : List (Char × UInt8) :=
  [('a', 7), ('b', 8), ('t', 9), ('n', 10), ('v', 11), ('f', 12), ('r', 13)]

/-- A character inside double quotes. -/
def encodeChar (c : Char) : List Char :=
  if c = '"' ∨ c = '\\' then ['\\', c]
  else if isPrintable c then [c]
  else
    match letterEscapes.find? fun e => e.2.toNat = c.toNat with
    | some (letter, _) => ['\\', letter]
    | none =>
      if c.toNat < 0x20 ∨ c.toNat = 0x7F then '\\' :: 'x' :: hexPadded 2 c.toNat
      else if c.toNat < 0x10000 then '\\' :: 'u' :: hexPadded 4 c.toNat
      else '\\' :: 'U' :: hexPadded 8 c.toNat

/-- A piece of a byte string inside double quotes. -/
def encodePiece : Piece → List Char
  | .char c => encodeChar c
  | .stray b => '\\' :: 'x' :: hexPadded 2 b.toNat

/-- A byte string in double quotes. -/
def encode (bs : List UInt8) : List Char :=
  '"' :: (Utf8.pieces bs).flatMap encodePiece ++ ['"']

/-- The value of a hexadecimal digit. -/
def hexDigit? (b : UInt8) : Option Nat :=
  if 0x30 ≤ b ∧ b ≤ 0x39 then some (b.toNat - 0x30)
  else if 0x61 ≤ b ∧ b ≤ 0x66 then some (b.toNat - 0x61 + 10)
  else if 0x41 ≤ b ∧ b ≤ 0x46 then some (b.toNat - 0x41 + 10)
  else none

/-- The value of an octal digit. -/
def octalDigit? (b : UInt8) : Option Nat :=
  if 0x30 ≤ b ∧ b ≤ 0x37 then some (b.toNat - 0x30) else none

/-- Reads exactly `count` digits of the given base. -/
def readDigits (digit? : UInt8 → Option Nat) (base : Nat) : (count value : Nat) → List UInt8 →
    Option (Nat × List UInt8)
  | 0, value, bs => some (value, bs)
  | count + 1, value, b :: bs => do
    let d ← digit? b
    readDigits digit? base count (value * base + d) bs
  | _ + 1, _, [] => none

/-- The bytes of the code point, if it is one. -/
def codePoint? (code : Nat) : Option (List UInt8) :=
  if code.isValidChar then some (String.utf8EncodeChar (Char.ofNat code)) else none

/-- Reads what follows a backslash: the bytes it stands for, and the rest. -/
def escape? (e : UInt8) (bs : List UInt8) : Option (List UInt8 × List UInt8) :=
  match letterEscapes.find? fun l => l.1.toNat = e.toNat with
  | some (_, byte) => some ([byte], bs)
  | none =>
    if e.toNat = '\\'.toNat ∨ e.toNat = '"'.toNat then some ([e], bs)
    else if e.toNat = 'x'.toNat then do
      let (value, rest) ← readDigits hexDigit? 16 2 0 bs
      return ([UInt8.ofNat value], rest)
    else if e.toNat = 'u'.toNat then do
      let (value, rest) ← readDigits hexDigit? 16 4 0 bs
      return (← codePoint? value, rest)
    else if e.toNat = 'U'.toNat then do
      let (value, rest) ← readDigits hexDigit? 16 8 0 bs
      return (← codePoint? value, rest)
    else do
      let (value, rest) ← readDigits octalDigit? 8 3 0 (e :: bs)
      if value < 256 then return ([UInt8.ofNat value], rest) else none

theorem length_readDigits {digit? : UInt8 → Option Nat} {base count value n : Nat}
    {bs rest : List UInt8} (h : readDigits digit? base count value bs = some (n, rest)) :
    bs.length = rest.length + count := by
  induction count generalizing value bs with
  | zero =>
    obtain ⟨-, rfl⟩ : value = n ∧ bs = rest := by simpa [readDigits] using h
    rfl
  | succ count ih =>
    cases bs with
    | nil => simp [readDigits] at h
    | cons b bs =>
      simp only [readDigits, Option.bind_eq_bind, Option.bind_eq_some_iff] at h
      obtain ⟨d, -, h⟩ := h
      have := ih h
      simp only [List.length_cons]
      omega

theorem length_escape?_le {e : UInt8} {bs out rest : List UInt8}
    (h : escape? e bs = some (out, rest)) : rest.length ≤ bs.length := by
  unfold escape? at h
  split at h
  · obtain ⟨-, rfl⟩ : [_] = out ∧ bs = rest := by simpa using h
    exact Nat.le_refl _
  · simp only [Option.bind_eq_bind, Option.pure_def] at h
    split at h
    · obtain ⟨-, rfl⟩ : [e] = out ∧ bs = rest := by simpa using h
      exact Nat.le_refl _
    · repeat' split at h
      all_goals
        simp only [Option.bind_eq_some_iff, Prod.exists] at h
        obtain ⟨value, rest', hread, h⟩ := h
        have := length_readDigits hread
        grind

/-- Reads the inside of a quoted text. A quote has to be escaped and a line may not end. -/
def decode : List UInt8 → Option (List UInt8)
  | [] => some []
  | b :: bs =>
    if b.toNat = '\\'.toNat then
      match bs with
      | [] => none
      | e :: bs =>
        match _h : escape? e bs with
        | none => none
        | some (out, rest) => (decode rest).map (out ++ ·)
    else if b.toNat = '"'.toNat ∨ b.toNat = '\n'.toNat then none
    else (decode bs).map (b :: ·)
termination_by bs => bs.length
decreasing_by
  · have := length_escape?_le _h
    simp only [List.length_cons]
    omega
  · simp

end Quoted

/-- A text in double quotes, as problems show it. -/
def quote (s : String) : String := String.ofList (Quoted.encode (Utf8.ofText s))

end Generics.Text
