/-
Rounding of doubles to whole numbers and to decimal places.

* `roundAway` : to the nearest whole number, a half going away from zero; the sign of zero is kept.
* `roundTo` : to decimal places, by scaling up, rounding and scaling down in floating point. It is
  what a threshold is compared with.
-/
import Reckon.Number.Dyadic

namespace Reckon.Number

/-- The whole number nearest to a double, a half going away from zero. -/
def roundAway (x : Float) : Float :=
  match Dyadic.ofFloat? x with
  | none => x
  | some d =>
    if 0 ≤ d.exponent then x
    else
      let unit := Nat.pow 2 (-d.exponent).toNat
      nearestFloat d.negative ((2 * d.mantissa + unit) / (2 * unit)) 1

/-- A power of ten as a double. -/
def tenPow (n : Nat) : Float :=
  nearestFloat false (Nat.pow 10 n) 1

/-- The double rounded to decimal places. -/
def roundTo (places : Nat) (x : Float) : Float :=
  roundAway (x * tenPow places) / tenPow places

end Reckon.Number
