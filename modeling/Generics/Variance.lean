/-!
# Variance

In which directions a parameter may vary while the type around it stays usable.
-/

namespace Generics

/-- The directions in which a parameter may vary. -/
structure Variance where
  /-- A subtype may be put in. -/
  covariant : Bool
  /-- A supertype may be put in. -/
  contravariant : Bool
deriving DecidableEq, Repr

namespace Variance

/-- Free in both directions. -/
def bi : Variance := ⟨true, true⟩

/-- Free towards subtypes. -/
def co : Variance := ⟨true, false⟩

/-- Free towards supertypes. -/
def contra : Variance := ⟨false, true⟩

/-- Fixed. -/
def inv : Variance := ⟨false, false⟩

/-- The two directions exchanged, as in a parameter position of a function. -/
def flip (v : Variance) : Variance := ⟨v.contravariant, v.covariant⟩

/-- The directions that both allow. -/
def meet (v w : Variance) : Variance :=
  ⟨v.covariant && w.covariant, v.contravariant && w.contravariant⟩

/-- The name of a variance. -/
def render : Variance → String
  | ⟨true, true⟩ => "bivariant"
  | ⟨true, false⟩ => "covariant"
  | ⟨false, true⟩ => "contravariant"
  | ⟨false, false⟩ => "invariant"

/-- Reads the name of a variance, or `+` and `-`; an empty text is invariant. -/
def parse? (s : String) : Option Variance :=
  if s = "bivariant" then some bi
  else if s = "covariant" ∨ s = "+" then some co
  else if s = "contravariant" ∨ s = "-" then some contra
  else if s = "invariant" ∨ s = "" then some inv
  else none

instance : Inhabited Variance := ⟨inv⟩

instance : ToString Variance := ⟨render⟩

theorem parse?_render (v : Variance) : parse? v.render = some v := by
  obtain ⟨co, contra⟩ := v
  cases co <;> cases contra <;> decide

theorem bi_meet (v : Variance) : bi.meet v = v := by
  simp [meet, bi]

theorem meet_assoc (u v w : Variance) : (u.meet v).meet w = u.meet (v.meet w) := by
  simp [meet, Bool.and_assoc]

end Variance

end Generics
