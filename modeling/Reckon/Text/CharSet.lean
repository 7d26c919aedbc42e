/-
Sets of characters given as lists of closed ranges of code points.

The character properties of this library (blanks, decimal digits, word characters, cased and
case-ignorable characters) are tables of this shape. A character belongs to the set when one of the
ranges holds its code point.

* `CharSet.contains` : the test.
* `CharSet.contains_iff` : what the test says, as a statement about the ranges.
-/

namespace Reckon.Text

/-- What is said of the characters of a list is decided by looking at these alone, also where all
characters could be looked through. -/
instance (priority := 2000) decidableForallMem (l : List Char) (p : Char → Prop)
    [DecidablePred p] : Decidable (∀ c ∈ l, p c) :=
  List.decidableBAll p l

/-- And so is what is said of the character of an option. -/
instance (priority := 2000) decidableForallMemOption (o : Option Char) (p : Char → Prop)
    [DecidablePred p] : Decidable (∀ c ∈ o, p c) :=
  Option.decidableForallMem o

/-- A set of characters as closed ranges `(first, last)` of code points. -/
structure CharSet where
  ranges : List (Nat × Nat)
  deriving Repr

namespace CharSet

/-- Some range of the set holds the character. -/
def contains (s : CharSet) (c : Char) : Bool :=
  s.ranges.any fun r => decide (r.1 ≤ c.toNat) && decide (c.toNat ≤ r.2)

theorem contains_iff (s : CharSet) (c : Char) :
    s.contains c = true ↔ ∃ r ∈ s.ranges, r.1 ≤ c.toNat ∧ c.toNat ≤ r.2 := by
  simp [contains, List.any_eq_true]

end CharSet

end Reckon.Text
