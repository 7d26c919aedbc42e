/-
Cube roots of doubles.

How precise a cube root has to be is left open by the libraries that provide one. Of the results
that are permitted, the double nearest to the exact root is taken. The double is scaled by a power
of eight until its root is above `2 ^ 54`. Doubles of that size, and the points midway between two
of them, are whole numbers, so an exact root that is not whole is rounded like any other number
between the same two whole ones.

* `wholeCubeRoot` : the whole part of the cube root of a natural number.
* `wholeCubeRoot_le`, `lt_wholeCubeRoot_succ` : its cube and the next one enclose the number.
* `cubeRoot` : the cube root of a double.
-/
import Reckon.Number.Dyadic

namespace Reckon.Number

/-- The largest number whose cube is at most `n`, for `n` below `8 ^ bits`, found bit by bit. -/
def cubeRootBits : Nat → Nat → Nat
  | 0, _ => 0
  | bits + 1, n =>
    let r := 2 * cubeRootBits bits (n / 8)
    if (r + 1) * (r + 1) * (r + 1) ≤ n then r + 1 else r

/-- The largest number whose cube is at most `n`. -/
def wholeCubeRoot (n : Nat) : Nat :=
  cubeRootBits (n.log2 / 3 + 1) n

theorem cubeRootBits_le (bits n : Nat) :
    cubeRootBits bits n * cubeRootBits bits n * cubeRootBits bits n ≤ n := by
  induction bits generalizing n with
  | zero => simp [cubeRootBits]
  | succ bits ih =>
    have h := ih (n / 8)
    simp only [cubeRootBits]
    split
    · assumption
    · grind

theorem lt_cubeRootBits_succ (bits n : Nat) (h : n < Nat.pow 8 bits) :
    n < (cubeRootBits bits n + 1) * (cubeRootBits bits n + 1) * (cubeRootBits bits n + 1) := by
  induction bits generalizing n with
  | zero => simpa [cubeRootBits] using h
  | succ bits ih =>
    rw [show Nat.pow 8 (bits + 1) = Nat.pow 8 bits * 8 from rfl] at h
    have h' := ih (n / 8) (by omega)
    simp only [cubeRootBits]
    split
    · grind
    · omega

theorem wholeCubeRoot_le (n : Nat) : wholeCubeRoot n * wholeCubeRoot n * wholeCubeRoot n ≤ n :=
  cubeRootBits_le _ n

theorem lt_wholeCubeRoot_succ (n : Nat) :
    n < (wholeCubeRoot n + 1) * (wholeCubeRoot n + 1) * (wholeCubeRoot n + 1) := by
  have h : Nat.pow 2 (3 * (n.log2 / 3 + 1)) = Nat.pow 8 (n.log2 / 3 + 1) := Nat.pow_mul 2 3 _
  apply lt_cubeRootBits_succ
  rw [← h]
  exact Nat.lt_of_lt_of_le Nat.lt_log2_self (Nat.pow_le_pow_right (by decide) (by omega))

/-- The double nearest to the cube root of a dyadic number. -/
def Dyadic.cubeRoot (d : Dyadic) : Float :=
  let k := ((164 - d.exponent) / 3).toNat
  let n := d.mantissa * Nat.pow 2 (d.exponent + 3 * k).toNat
  let r := wholeCubeRoot n
  if r * r * r = n then nearestFloat d.negative r (Nat.pow 2 k)
  else nearestFloat d.negative (2 * r + 1) (2 * Nat.pow 2 k)

/-- The cube root of a double. An infinity and NaN are their own. -/
def cubeRoot (x : Float) : Float :=
  match Dyadic.ofFloat? x with
  | some d => d.cubeRoot
  | none => x

end Reckon.Number
