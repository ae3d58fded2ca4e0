/-!
# Joining texts

Lists are shown with a comma and a space between their members.
-/

namespace Generics.Text

/-- The parts with a separator between each two. -/
def joinWith (sep : List Char) : List (List Char) → List Char
  | [] => []
  | [part] => part
  | part :: next :: parts => part ++ sep ++ joinWith sep (next :: parts)

/-- The parts with a comma and a space between each two. -/
def commaSep (parts : List (List Char)) : List Char := joinWith [',', ' '] parts

@[simp] theorem joinWith_nil (sep : List Char) : joinWith sep [] = [] := rfl

@[simp] theorem joinWith_singleton (sep part : List Char) : joinWith sep [part] = part := rfl

theorem joinWith_cons_cons (sep part next : List Char) (parts : List (List Char)) :
    joinWith sep (part :: next :: parts) = part ++ sep ++ joinWith sep (next :: parts) := rfl

end Generics.Text
