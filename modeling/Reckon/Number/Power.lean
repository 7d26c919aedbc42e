/-
Powers of doubles.

How precise a power has to be is left open by the libraries that provide one, and one of the results
that are permitted is chosen here. A whole power whose exact value is a double is that double. All
other powers come from the platform's power function, of which nothing is assumed.

* `power` : the power of a double by a double.
* `exactPower?` : the power of a finite base by a whole exponent, if it is a double.
-/
import Reckon.Number.Dyadic

namespace Reckon.Number

/-- The whole number that a double is. -/
def wholeValue? (x : Float) : Option Int :=
  match Dyadic.ofFloat? x with
  | none => none
  | some d =>
    if d.isWhole then
      let n : Nat := d.scaled 1
      some (if d.negative then -n else n)
    else none

/-- The mantissa with its factors of two moved into the exponent. A mantissa below `2 ^ fuel` is
made odd, unless it is zero. -/
def makeOdd : Nat → Nat → Int → Nat × Int
  | 0, m, e => (m, e)
  | fuel + 1, m, e => if m % 2 = 0 then makeOdd fuel (m / 2) (e + 1) else (m, e)

/-- The double `± m * 2 ^ e`, if that number is a double. -/
def exactFloat? (negative : Bool) (m : Nat) (e : Int) : Option Float :=
  if m < Nat.pow 2 53 ∧ -1074 ≤ e ∧ (m.log2 : Int) + e ≤ 1023 then
    some (if 0 ≤ e then nearestFloat negative (m * Nat.pow 2 e.toNat) 1
      else nearestFloat negative m (Nat.pow 2 (-e).toNat))
  else none

/-- The largest exponent for which a power of an odd number above one can be below `2 ^ 53`. -/
def largestOddExponent : Nat := 33

/-- The power of a finite base other than zero by a whole exponent, if that number is a double. Only
powers of two have such powers with negative exponents. -/
def exactPower? (x y : Float) : Option Float :=
  match Dyadic.ofFloat? x, wholeValue? y with
  | some d, some n =>
    let (m, e) := makeOdd 53 d.mantissa d.exponent
    let negative := d.negative && n.natAbs % 2 == 1
    if m = 0 then none
    else if m = 1 then exactFloat? negative 1 (e * n)
    else if 0 ≤ n ∧ n ≤ largestOddExponent then exactFloat? negative (Nat.pow m n.toNat) (e * n)
    else none
  | _, _ => none

/-- The power of `x` by `y`. -/
def power (x y : Float) : Float :=
  (exactPower? x y).getD (Float.pow x y)

end Reckon.Number
