/-!
# Readers

A reader takes one item off the front of a list of characters or tokens. What it leaves is shorter
than what it was given, and its type says so: a loop over items ends because the list gets shorter.
-/

namespace Spreadsheet

/-- An item read off a list of `bound` elements, and the elements after it. -/
structure Found (τ α : Type) (bound : Nat) where
  value : α
  rest : List τ
  rest_lt : rest.length < bound

/-- A reader of items `α` off lists of `τ`. -/
abbrev Reader (ε τ α : Type) :=
  (ts : List τ) → Except ε (Found τ α ts.length)

end Spreadsheet
