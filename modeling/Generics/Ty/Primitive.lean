/-!
# Primitive types

The built-in types by name: which names there are, and the width and sign of the integer types. The
two pointer-sized types have 64 bits.
-/

namespace Generics.Primitive

/-- The names of the built-in types. -/
def names : List String :=
  ["bool", "char", "str", "i8", "i16", "i32", "i64", "i128", "isize",
   "u8", "u16", "u32", "u64", "u128", "usize", "f32", "f64", "!"]

/-- The name is that of a built-in type. -/
def isName (name : String) : Bool := names.contains name

/-- The integer types: name, whether it is signed, and its width in bits. -/
def integers : List (String × Bool × Nat) :=
  [("i8", true, 8), ("i16", true, 16), ("i32", true, 32), ("i64", true, 64), ("i128", true, 128),
   ("isize", true, 64), ("u8", false, 8), ("u16", false, 16), ("u32", false, 32),
   ("u64", false, 64), ("u128", false, 128), ("usize", false, 64)]

/-- The sign and width of an integer type, if the name is one. -/
def integer? (name : String) : Option (Bool × Nat) := integers.lookup name

/-- The name is that of an integer type. -/
def isIntegral (name : String) : Bool := (integer? name).isSome

/-- The name is that of a signed integer type. -/
def isSigned (name : String) : Bool := ((integer? name).map Prod.fst).getD false

/-- The width of an integer type in bits, and 0 for any other name. -/
def bitSize (name : String) : Nat := ((integer? name).map Prod.snd).getD 0

end Generics.Primitive
