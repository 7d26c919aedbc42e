/-
Numerals: digits, with a point and more digits or without.

A numeral is read as the double nearest to the number that it denotes.

* `digitsValue` : the number that digits denote.
* `readNumeral?` : digits with at most one point among them, at either end too, and at least one
  digit.
* `digitsValue_append_singleton` : the last digit counts once.
-/
import Reckon.Number.Dyadic

namespace Reckon.Number

/-- The value of an ASCII digit. -/
def digitValue (c : Char) : Nat :=
  c.toNat - '0'.toNat

/-- The number denoted by ASCII digits. -/
def digitsValue (ds : List Char) : Nat :=
  ds.foldl (fun n c => 10 * n + digitValue c) 0

theorem digitsValue_append_singleton (ds : List Char) (c : Char) :
    digitsValue (ds ++ [c]) = 10 * digitsValue ds + digitValue c := by
  simp [digitsValue]

/-- The double nearest to the numeral with these digits before and after the point. -/
def numeralValue (whole fraction : List Char) : Float :=
  nearestFloat false (digitsValue (whole ++ fraction)) (Nat.pow 10 fraction.length)

/-- The digits in front of a text, and the rest of it. -/
def spanDigits (s : List Char) : List Char × List Char :=
  s.span Char.isDigit

/-- The value of digits with at most one point among them. The point may stand at an end, but it
may not stand alone. -/
def readNumeral? (s : List Char) : Option Float :=
  let (whole, rest) := spanDigits s
  match rest with
  | [] => if whole.isEmpty then none else some (numeralValue whole [])
  | '.' :: fraction =>
    if fraction.all Char.isDigit && !(whole.isEmpty && fraction.isEmpty) then
      some (numeralValue whole fraction)
    else none
  | _ => none

end Reckon.Number
