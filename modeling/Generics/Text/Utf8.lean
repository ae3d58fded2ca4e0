/-!
# UTF-8

Bytes read as characters. A byte that belongs to no well-formed sequence is kept as it is, so nothing
of the input is lost.
-/

namespace Generics.Text

/-- A piece of a byte string: a character, or a byte outside any well-formed sequence. -/
inductive Piece where
  | char (c : Char)
  | stray (b : UInt8)
deriving DecidableEq, Repr

namespace Utf8

/-- The six payload bits of a continuation byte. -/
def tail? (b : UInt8) : Option Nat := if 0x80 ≤ b ∧ b < 0xC0 then some (b.toNat - 0x80) else none

/-- The character with the given code point, if it is one and needs more than the code points below
`least`. -/
def char? (least code : Nat) : Option Char :=
  if least ≤ code ∧ code.isValidChar then some (Char.ofNat code) else none

/-- The character of the sequence that starts with `b` and goes on in `bs`, and the bytes after it. -/
def sequence? (b : UInt8) (bs : List UInt8) : Option (Char × List UInt8) :=
  if b < 0x80 then some (Char.ofNat b.toNat, bs)
  else if b < 0xC0 then none
  else if b < 0xE0 then
    match bs with
    | c :: rest => do
      let code := (b.toNat - 0xC0) * 64 + (← tail? c)
      return (← char? 0x80 code, rest)
    | _ => none
  else if b < 0xF0 then
    match bs with
    | c :: d :: rest => do
      let code := ((b.toNat - 0xE0) * 64 + (← tail? c)) * 64 + (← tail? d)
      return (← char? 0x800 code, rest)
    | _ => none
  else if b < 0xF8 then
    match bs with
    | c :: d :: e :: rest => do
      let code := (((b.toNat - 0xF0) * 64 + (← tail? c)) * 64 + (← tail? d)) * 64 + (← tail? e)
      return (← char? 0x10000 code, rest)
    | _ => none
  else none

/-- The first piece of a nonempty byte string, and the bytes after it. -/
def first (b : UInt8) (bs : List UInt8) : Piece × List UInt8 :=
  match sequence? b bs with
  | some (c, rest) => (.char c, rest)
  | none => (.stray b, bs)

theorem length_sequence?_le {b : UInt8} {bs rest : List UInt8} {c : Char}
    (h : sequence? b bs = some (c, rest)) : rest.length ≤ bs.length := by
  unfold sequence? at h
  simp only [Option.bind_eq_bind, Option.pure_def] at h
  repeat' split at h
  all_goals
    simp only [Option.bind_eq_some_iff, Option.some.injEq, Prod.mk.injEq, reduceCtorEq] at h
  · exact Nat.le_of_eq (congrArg List.length h.2.symm)
  all_goals
    simp only [List.length_cons]
    grind

theorem length_first_le (b : UInt8) (bs : List UInt8) : (first b bs).2.length ≤ bs.length := by
  unfold first
  split
  · rename_i h
    exact length_sequence?_le h
  · exact Nat.le_refl _

/-- The pieces of a byte string. -/
def pieces : List UInt8 → List Piece
  | [] => []
  | b :: bs => (first b bs).1 :: pieces (first b bs).2
termination_by bs => bs.length
decreasing_by
  have := length_first_le b bs
  simp only [List.length_cons]
  omega

/-- The text of a byte string, with U+FFFD for each byte outside any well-formed sequence. -/
def toText (bs : List UInt8) : String :=
  String.ofList ((pieces bs).map fun
    | .char c => c
    | .stray _ => '�')

/-- The bytes of a text. -/
def ofText (s : String) : List UInt8 := s.toUTF8.toList

end Utf8

end Generics.Text
