/-
Splitting texts and lists, and texts as words.

* `splitOnce?` : at the first occurrence of a separator.
* `places` : every element of a list with what stands before and behind it.
* `stripSuffix?`, `stripPrefix?` : without a given end or beginning.
* `wordsOf` : the lower-case words of a text.
* `eq_append_of_splitOnce?` : the parts and the separator make up the text.
-/
import Reckon.Text.Blank
import Reckon.Text.LowerCase

namespace Reckon.Text

/-- The text behind a beginning, if it has that beginning. -/
def stripPrefix? : List Char → List Char → Option (List Char)
  | [], s => some s
  | _ :: _, [] => none
  | p :: ps, c :: s => if p = c then stripPrefix? ps s else none

/-- The text before an end, if it has that end. -/
def stripSuffix? (e s : List Char) : Option (List Char) :=
  (stripPrefix? e.reverse s.reverse).map List.reverse

/-- What stands before and behind the first occurrence of a separator. -/
def splitOnce? (sep : List Char) : List Char → Option (List Char × List Char)
  | [] => (stripPrefix? sep []).map fun r => ([], r)
  | c :: s =>
    match stripPrefix? sep (c :: s) with
    | some r => some ([], r)
    | none => (splitOnce? sep s).map fun (a, b) => (c :: a, b)

/-- The elements of a list, each with the elements before it and those behind it. -/
def places {α : Type} : List α → List (List α × α × List α)
  | [] => []
  | x :: xs => ([], x, xs) :: (places xs).map fun (a, y, b) => (x :: a, y, b)

/-- The words of a text in lower case. -/
def wordsOf (s : List Char) : List (List Char) :=
  words (lower s)

/-- The words as strings with one space between neighbours. -/
def joinWords (ws : List String) : String :=
  " ".intercalate ws

theorem stripPrefix?_eq_some {p s r : List Char} : stripPrefix? p s = some r ↔ s = p ++ r := by
  induction p generalizing s with
  | nil => simp [stripPrefix?]
  | cons a p ih =>
    cases s with
    | nil => simp [stripPrefix?]
    | cons c s =>
      by_cases h : a = c
      · simp [stripPrefix?, h, ih]
      · simp [stripPrefix?, h, Ne.symm h]

theorem eq_append_of_splitOnce? {sep s a b : List Char} (h : splitOnce? sep s = some (a, b)) :
    s = a ++ sep ++ b := by
  induction s generalizing a with
  | nil =>
    simp only [splitOnce?, Option.map_eq_some_iff, Prod.mk.injEq] at h
    obtain ⟨r, hr, rfl, rfl⟩ := h
    simpa using stripPrefix?_eq_some.mp hr
  | cons c s ih =>
    rw [splitOnce?] at h
    split at h
    · rename_i r hr
      simp only [Option.some.injEq, Prod.mk.injEq] at h
      obtain ⟨rfl, rfl⟩ := h
      simpa using stripPrefix?_eq_some.mp hr
    · simp only [Option.map_eq_some_iff, Prod.mk.injEq, Prod.exists] at h
      obtain ⟨a', b', hab, rfl, rfl⟩ := h
      rw [ih hab]
      simp

end Reckon.Text
