/-!
# Hash of a text

The 64-bit Fowler–Noll–Vo hash, variant 1a, of the bytes of a text in UTF-8.
-/

namespace Generics.Text

/-- One byte enters the hash: exclusive or, then the prime. -/
def hashByte (h : UInt64) (b : UInt8) : UInt64 := (h ^^^ b.toUInt64) * 0x100000001b3

/-- The hash of a text. -/
def hash (s : String) : UInt64 := s.toUTF8.toList.foldl hashByte 0xcbf29ce484222325

/-- A 64-bit word in sixteen hexadecimal digits. -/
def hex16 (w : UInt64) : String :=
  let digits := Nat.toDigits 16 w.toNat
  String.ofList (List.replicate (16 - digits.length) '0' ++ digits)

end Generics.Text
