/-
Replacing by patterns.

A replacement puts its output in the place of every match of its pattern. Matches are looked for
from the front; the search goes on behind a match, and what surrounds it is the text as it was
before. An empty match counts as none.

A replacement whose matches can share a character (the middle digit of `2x3x4`) is repeated until
the text no longer changes.

* `Replacement.pass` : all matches once.
* `Replacement.apply` : one pass, or passes until nothing changes.
-/
import Reckon.Pattern.Basic

namespace Reckon

/-- A part of the output of a replacement. -/
inductive Piece
  /-- These characters. -/
  | text (s : String)
  /-- The stretch of this number that the match keeps, counted from zero. -/
  | kept (i : Nat)
  deriving Repr, DecidableEq

/-- The characters that a piece stands for in a match. -/
def Piece.chars (m : Match) : Piece → List Char
  | .text s => s.toList
  | .kept i => ((m.captures[i]?).map Stretch.chars).getD []

/-- A replacement of all matches of a pattern. -/
structure Replacement where
  pattern : Pattern
  output : List Piece
  repeats : Bool := false
  deriving Repr, DecidableEq

namespace Replacement

/-- The output of a replacement for a match. -/
def fill (r : Replacement) (m : Match) : List Char :=
  r.output.flatMap (Piece.chars m)

/-- The match at a place, if it takes any character. -/
def matchAt (r : Replacement) (p : Place) : Option Match :=
  (r.pattern.firstMatch p).filter fun m => 0 < m.size

/-- The rest of a text with its matches replaced. The character before it is `before`, and its
first `skip` characters belong to a match that has been replaced already. -/
def passFrom (r : Replacement) (before : Option Char) : Nat → List Char → List Char
  | _, [] => []
  | skip + 1, c :: s => passFrom r (some c) skip s
  | 0, c :: s =>
    match r.matchAt ⟨before, c :: s⟩ with
    | some m => r.fill m ++ passFrom r (some c) (m.size - 1) s
    | none => c :: passFrom r (some c) 0 s

/-- The text with all matches replaced. -/
def pass (r : Replacement) (s : List Char) : List Char :=
  r.passFrom none 0 s

/-- At most `n` passes, until the text no longer changes. -/
def settle (r : Replacement) : Nat → List Char → List Char
  | 0, s => s
  | n + 1, s =>
    let t := r.pass s
    if t = s then s else settle r n t

/-- The text with the replacement made. A repeated replacement gets as many passes as the text has
characters; each pass that changes the text uses up a character that the pattern needs. -/
def apply (r : Replacement) (s : List Char) : List Char :=
  if r.repeats then r.settle s.length s else r.pass s

theorem settle_of_pass_eq_self (r : Replacement) (n : Nat) (s : List Char) (h : r.pass s = s) :
    r.settle n s = s := by
  cases n with
  | zero => rfl
  | succ n => simp [settle, h]

end Replacement

end Reckon
