/-
How numbers are written.

A number is written with a fixed count of decimal places, which are those of its exact value rounded
to nearest, a tie going to the even digit. The minus sign is kept even where only zeros are left.

* `fixed` : with a fixed count of places.
* `display` : a whole number without a fraction, any other number with up to ten places and no zeros
  at their end; never `-0`.
-/
import Reckon.Number.Dyadic

namespace Reckon.Number

/-- The decimal digits of a natural number. -/
def digits (n : Nat) : List Char :=
  Nat.toDigits 10 n

/-- The digits of `n` with zeros in front up to this width. -/
def paddedDigits (width n : Nat) : List Char :=
  List.leftpad width '0' (digits n)

/-- The natural number `n`, counted in units of the last of `places` decimal places. -/
def withPlaces (places n : Nat) : List Char :=
  if places = 0 then digits n
  else digits (n / Nat.pow 10 places) ++ '.' :: paddedDigits places (n % Nat.pow 10 places)

/-- What stands for a value that is no number. -/
def nonFiniteText (x : Float) : List Char :=
  if x.isNaN then ['N', 'a', 'N']
  else if x < 0 then ['-', 'i', 'n', 'f']
  else ['i', 'n', 'f']

/-- The text behind a minus sign, or alone. -/
def signed (negative : Bool) (s : List Char) : List Char :=
  if negative then '-' :: s else s

/-- The number with exactly `places` decimal places. -/
def fixed (places : Nat) (x : Float) : List Char :=
  match Dyadic.ofFloat? x with
  | none => nonFiniteText x
  | some d => signed d.negative (withPlaces places (d.scaled (Nat.pow 10 places)))

/-- The text without the characters `c` at its end. -/
def dropBack (c : Char) (s : List Char) : List Char :=
  (s.reverse.dropWhile (· == c)).reverse

/-- A decimal text without zeros at the end of its fraction, nor a point at its end. -/
def trimZeros (s : List Char) : List Char :=
  dropBack '.' (dropBack '0' s)

/-- The most decimal places that a number is shown with. -/
def displayPlaces : Nat := 10

/-- The number as an answer shows it. -/
def display (x : Float) : List Char :=
  match Dyadic.ofFloat? x with
  | none => nonFiniteText x
  | some d =>
    if d.isWhole then signed (d.negative && d.mantissa != 0) (digits (d.scaled 1))
    else
      let s := trimZeros (fixed displayPlaces x)
      if s = ['-', '0'] then ['0'] else s

end Reckon.Number
