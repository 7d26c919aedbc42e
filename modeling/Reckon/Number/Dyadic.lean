/-
The exact value of a double, and the double nearest to an exact value.

A finite double is a sign, a natural mantissa and a power of two. Reading it (`Dyadic.ofFloat?`) and
rounding a quotient of natural numbers to the nearest double (`nearestFloat`) are done on the bits
in integer arithmetic, so that printing, reading and rounding are exact by construction.

* `roundDiv` : the nearest natural number to a quotient, a tie going to the even one.
* `nearestFloat` : the double nearest to a quotient, or an infinity beyond the largest double.
-/

namespace Reckon.Number

/-- The nearest natural number to `num / den`; of two equally near ones the even one. -/
def roundDiv (num den : Nat) : Nat :=
  let q := num / den
  let r := num % den
  if den < 2 * r then q + 1
  else if 2 * r = den then q + q % 2
  else q

/-- A number `± mantissa * 2 ^ exponent`. Zero has a sign as well. -/
structure Dyadic where
  negative : Bool
  mantissa : Nat
  exponent : Int
  deriving Repr, DecidableEq

namespace Dyadic

/-- The exact value of a double; an infinity and NaN have none. -/
def ofFloat? (x : Float) : Option Dyadic :=
  let bits := x.toBits.toNat
  let negative : Bool := Nat.pow 2 63 ≤ bits
  let field : Nat := bits / Nat.pow 2 52 % Nat.pow 2 11
  let fraction := bits % Nat.pow 2 52
  if field = Nat.pow 2 11 - 1 then none
  else if field = 0 then some ⟨negative, fraction, -1074⟩
  else some ⟨negative, Nat.pow 2 52 + fraction, (field : Int) - 1075⟩

/-- The magnitude is a whole number. -/
def isWhole (d : Dyadic) : Bool :=
  0 ≤ d.exponent || d.mantissa % Nat.pow 2 (-d.exponent).toNat == 0

/-- The magnitude times a natural number, rounded to the nearest natural number. -/
def scaled (d : Dyadic) (factor : Nat) : Nat :=
  if 0 ≤ d.exponent then d.mantissa * factor * Nat.pow 2 d.exponent.toNat
  else roundDiv (d.mantissa * factor) (Nat.pow 2 (-d.exponent).toNat)

end Dyadic

/-- The exponent of the largest power of two that is at most `num / den`, for positive numbers. -/
def floorLog2 (num den : Nat) : Int :=
  let k : Int := (num.log2 : Int) - den.log2
  let reached : Bool :=
    if 0 ≤ k then den * Nat.pow 2 k.toNat ≤ num else den ≤ num * Nat.pow 2 (-k).toNat
  if reached then k else k - 1

/-- The bits of the double nearest to `num / den`. The quotient is rounded in units of its last
place, which are `2 ^ -1074` or larger. Counting the exponent of that unit in units of `2 ^ 52` and
adding the rounded quotient gives the bits; a quotient rounded up to the next power of two carries
into the exponent. -/
def nearestBits (num den : Nat) : Nat :=
  if num = 0 then 0
  else
    let unit := max (-1074) (floorLog2 num den - 52)
    let q := if 0 ≤ unit then roundDiv num (den * Nat.pow 2 unit.toNat)
      else roundDiv (num * Nat.pow 2 (-unit).toNat) den
    min ((unit + 1074).toNat * Nat.pow 2 52 + q) ((Nat.pow 2 11 - 1) * Nat.pow 2 52)

/-- The double nearest to `± num / den`, with the sign kept for zero. -/
def nearestFloat (negative : Bool) (num den : Nat) : Float :=
  Float.ofBits (UInt64.ofNat (nearestBits num den + if negative then Nat.pow 2 63 else 0))

/-- The double nearest to `digits * 10 ^ exponent`. Beyond `limit` in either direction the exponent
alone decides: the value is then past the largest double, or below half the smallest. -/
def nearestDecimal (negative : Bool) (digits : Nat) (exponent : Int) : Float :=
  let limit : Int := 400 + digits.log2
  if digits = 0 then nearestFloat negative 0 1
  else if limit < exponent then nearestFloat negative (Nat.pow 10 400) 1
  else if exponent < -limit then nearestFloat negative 0 1
  else if 0 ≤ exponent then nearestFloat negative (digits * Nat.pow 10 exponent.toNat) 1
  else nearestFloat negative digits (Nat.pow 10 (-exponent).toNat)

end Reckon.Number
