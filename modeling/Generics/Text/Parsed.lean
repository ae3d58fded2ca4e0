/-!
# Results of reading

A reader takes something from the front of a list of tokens and returns what is left, which is
shorter. Readers that call each other end because of it.
-/

namespace Generics.Text

/-- A value read from the front of `ts`, and the tokens after it. -/
structure Parsed {τ : Type} (α : Type) (ts : List τ) where
  value : α
  rest : List τ
  shorter : rest.length < ts.length

namespace Parsed

variable {τ α β : Type}

/-- A value read from a token alone. -/
def ofToken (value : α) (t : τ) (ts : List τ) : Parsed α (t :: ts) :=
  ⟨value, ts, Nat.lt_succ_self _⟩

/-- A value read from a token and the next `n` ones. -/
def ofTokens (value : α) (t : τ) (ts : List τ) (n : Nat) : Parsed α (t :: ts) :=
  ⟨value, ts.drop n, by
    simp only [List.length_drop, List.length_cons]
    omega⟩

/-- A value read from a token and those after it that have a property. -/
def ofTokensWhile (value : α) (t : τ) (ts : List τ) (f : τ → Bool) : Parsed α (t :: ts) :=
  ⟨value, ts.dropWhile f, Nat.lt_succ_of_le (List.dropWhile_sublist _).length_le⟩

/-- A value read from a token and what is read after it. -/
def after {ts : List τ} (r : Parsed α ts) (t : τ) (value : β) : Parsed β (t :: ts) :=
  ⟨value, r.rest, Nat.lt_succ_of_lt r.shorter⟩

/-- A value read between a token and the next one after it. -/
def closed {ts : List τ} (r : Parsed α ts) (t : τ) : Parsed α (t :: ts) :=
  ⟨r.value, r.rest.tail, by
    have := r.shorter
    simp only [List.length_tail, List.length_cons]
    omega⟩

end Parsed

end Generics.Text
