/-
Rounding to whole numbers.

A rational number is rounded to the nearest whole number, and to the even one where two are equally
near. Rounding keeps order, and a number that is at least as near to the result rounds to it as well.

* `RoundsTo` : what rounding means, without saying how it is done.
* `roundsTo_roundDiv` : a quotient of natural numbers is rounded so.
* `RoundsTo.unique`, `RoundsTo.mono` : there is one result, and it keeps order.
* `RoundsTo.of_le` : numbers that are as near to the result.
-/
import Mathlib
import Reckon.Number.Dyadic

namespace Reckon.Number

/-- The number `r` rounds to `q`: no whole number is nearer, and of two equally near ones `q` is
even. -/
structure RoundsTo (r : ℚ) (q : ℕ) : Prop where
  near : |r - q| ≤ 1 / 2
  even : |r - q| = 1 / 2 → Even q

namespace RoundsTo

variable {r r' : ℚ} {a b q : ℕ}

theorem natCast (n : ℕ) : RoundsTo n n :=
  ⟨by simp, fun h => by norm_num at h⟩

/-- A smaller number does not round to a larger result. -/
theorem mono (ha : RoundsTo r a) (hb : RoundsTo r' b) (h : r ≤ r') : a ≤ b := by
  by_contra hlt
  have hle : (b : ℚ) + 1 ≤ a := by exact_mod_cast Nat.lt_of_not_le hlt
  obtain ⟨ha₁, ha₂⟩ := abs_le.mp ha.near
  obtain ⟨hb₁, hb₂⟩ := abs_le.mp hb.near
  -- both are half way between two neighbours, one of which is odd
  have hnext : (a : ℚ) = b + 1 := by linarith
  have heven : Even a := ha.even (by rw [abs_eq (by norm_num)]; right; linarith)
  have heven' : Even b := hb.even (by rw [abs_eq (by norm_num)]; left; linarith)
  have hsucc : a = b + 1 := by exact_mod_cast hnext
  rw [hsucc, Nat.even_add_one] at heven
  exact heven heven'

theorem unique (ha : RoundsTo r a) (hb : RoundsTo r b) : a = b :=
  Nat.le_antisymm (ha.mono hb le_rfl) (hb.mono ha le_rfl)

theorem eq_of_eq_natCast (h : RoundsTo r q) {n : ℕ} (hr : r = n) : q = n := by
  rw [hr] at h
  exact h.unique (natCast n)

/-- No whole number is nearer than the result. -/
theorem nearest (h : RoundsTo r q) (z : ℤ) : |r - q| ≤ |r - z| := by
  by_cases hz : (q : ℤ) = z
  · rw [← hz, Int.cast_natCast]
  · have hfar : (1 : ℚ) ≤ |(q : ℚ) - z| := by
      have hint : 1 ≤ |(q : ℤ) - z| := Int.one_le_abs (sub_ne_zero.mpr hz)
      exact_mod_cast hint
    have htriangle : |(q : ℚ) - z| ≤ |r - q| + |r - z| := by
      rw [abs_sub_comm r q]
      exact abs_sub_le _ _ _
    have hnear := h.near
    linarith

theorem of_le (h : RoundsTo r q) (hle : |r' - q| ≤ |r - q|) : RoundsTo r' q :=
  ⟨hle.trans h.near, fun htie => h.even (le_antisymm h.near (htie ▸ hle))⟩

end RoundsTo

/-- Dividing natural numbers rounds their quotient. -/
theorem roundsTo_roundDiv (num : ℕ) {den : ℕ} (hden : 0 < den) :
    RoundsTo (num / den) (roundDiv num den) := by
  have hpos : (0 : ℚ) < den := by exact_mod_cast hden
  have hsplit : (num : ℚ) = den * (num / den : ℕ) + (num % den : ℕ) := by
    exact_mod_cast (Nat.div_add_mod num den).symm
  have hrest : (num : ℚ) / den = (num / den : ℕ) + (num % den : ℕ) / den := by
    rw [hsplit, add_div, mul_div_cancel_left₀ _ hpos.ne']
  have hlt : num % den < den := Nat.mod_lt _ hden
  rw [hrest, roundDiv]
  generalize num / den = q at *
  generalize num % den = s at *
  have hs : (0 : ℚ) ≤ s / den := by positivity
  split
  · next hover =>
    have hhalf : (1 : ℚ) / 2 < s / den := by
      rw [div_lt_div_iff₀ (by norm_num) hpos]
      have hcast : (den : ℚ) < 2 * s := by exact_mod_cast hover
      linarith
    have hone : (s : ℚ) / den < 1 := by
      rw [div_lt_one hpos]
      exact_mod_cast hlt
    have hlow : |(q : ℚ) + s / den - (q + 1 : ℕ)| < 1 / 2 := by
      push_cast
      rw [abs_lt]
      constructor <;> linarith
    exact ⟨hlow.le, fun h => absurd h hlow.ne⟩
  · next hunder =>
    split
    · next htie =>
      have hhalf : (s : ℚ) / den = 1 / 2 := by
        rw [div_eq_div_iff hpos.ne' (by norm_num)]
        have hcast : (2 : ℚ) * s = den := by exact_mod_cast htie
        linarith
      rw [hhalf]
      rcases Nat.even_or_odd q with heven | hodd
      · rw [Nat.even_iff.mp heven, Nat.add_zero]
        exact ⟨by norm_num, fun _ => heven⟩
      · rw [Nat.odd_iff.mp hodd]
        exact ⟨by push_cast; norm_num [abs_le], fun _ => hodd.add_one⟩
    · next hne =>
      have hhalf : (s : ℚ) / den < 1 / 2 := by
        rw [div_lt_div_iff₀ hpos (by norm_num)]
        have hless : 2 * s < den := by omega
        have hcast : (2 : ℚ) * s < den := by exact_mod_cast hless
        linarith
      have hlow : |(q : ℚ) + s / den - q| < 1 / 2 := by
        rw [add_sub_cancel_left, abs_of_nonneg hs]
        exact hhalf
      exact ⟨hlow.le, fun h => absurd h hlow.ne⟩

end Reckon.Number
