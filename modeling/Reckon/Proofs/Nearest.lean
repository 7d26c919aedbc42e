/-
The double nearest to a quotient.

A quotient is rounded in units of its last place: the largest power of two of which it has at least
`2 ^ 52`, or the least unit of all. Every double is a multiple of that unit or, being smaller than
the quotient, further away from it than `2 ^ 52` units are. So no double is nearer than the result.

* `Dyadic.magnitude` : the exact value, the sign apart.
* `Dyadic.roundsTo_scaled` : multiplying and rounding an exact value.
* `zpow_floorLog2_le`, `lt_zpow_floorLog2` : the power of two that a quotient reaches.
* `exists_nearest` : no double is nearer than the result, unless the quotient is too large.
-/
import Reckon.Proofs.DoubleBits
import Reckon.Proofs.Rounding

namespace Reckon.Number

theorem two_zpow_pos (e : ℤ) : (0 : ℚ) < 2 ^ e :=
  zpow_pos (by norm_num) e

theorem natCast_pow_toNat {e : ℤ} (he : 0 ≤ e) : ((Nat.pow 2 e.toNat : ℕ) : ℚ) = 2 ^ e := by
  obtain ⟨n, rfl⟩ := Int.eq_ofNat_of_zero_le he
  rw [Int.toNat_natCast, zpow_natCast]
  exact Nat.cast_pow 2 n

/-! ### Magnitudes -/

namespace Dyadic

/-- The exact value without its sign. -/
def magnitude (d : Dyadic) : ℚ :=
  d.mantissa * 2 ^ d.exponent

theorem magnitude_eq_zero_iff (d : Dyadic) : d.magnitude = 0 ↔ d.mantissa = 0 := by
  rw [magnitude, mul_eq_zero, or_iff_left (two_zpow_pos _).ne', Nat.cast_eq_zero]

/-- Multiplying an exact value by a natural number and rounding it. -/
theorem roundsTo_scaled (d : Dyadic) (factor : ℕ) :
    RoundsTo (d.magnitude * factor) (d.scaled factor) := by
  rw [scaled, magnitude]
  split
  · next he =>
    have hvalue : (d.mantissa * 2 ^ d.exponent * factor : ℚ) =
        (d.mantissa * factor * Nat.pow 2 d.exponent.toNat : ℕ) := by
      rw [Nat.cast_mul, Nat.cast_mul, natCast_pow_toNat he]
      ring
    rw [hvalue]
    exact RoundsTo.natCast _
  · next he =>
    have hround : RoundsTo _
        (roundDiv (d.mantissa * factor) (Nat.pow 2 (-d.exponent).toNat)) :=
      roundsTo_roundDiv _ (Nat.pow_pos (by decide))
    rw [natCast_pow_toNat (by omega), zpow_neg, div_inv_eq_mul, Nat.cast_mul] at hround
    rwa [mul_right_comm]

/-- Of canonical numbers, the magnitude and the sign tell them apart. -/
theorem Canonical.eq_of_magnitude {d d' : Dyadic} (h : d.Canonical) (h' : d'.Canonical)
    (hsign : d.negative = d'.negative) (hvalue : d.magnitude = d'.magnitude) : d = d' := by
  -- a larger exponent would come with a mantissa that is too small
  have hexponent {d d' : Dyadic} (h : d.Canonical) (h' : d'.Canonical)
      (hvalue : d.magnitude = d'.magnitude) : d'.exponent ≤ d.exponent := by
    by_contra hlt
    have hlt' : (d.mantissa : ℚ) < 2 ^ 53 := by exact_mod_cast h.mantissa_lt
    have hle : (2 : ℚ) ^ 52 ≤ d'.mantissa := by
      exact_mod_cast h'.le_mantissa (lt_of_le_of_lt h.le_exponent (not_le.mp hlt))
    have hless : d.magnitude < d'.magnitude :=
      calc d.magnitude < 2 ^ 53 * 2 ^ d.exponent :=
            mul_lt_mul_of_pos_right hlt' (two_zpow_pos _)
        _ = 2 ^ 52 * 2 ^ (d.exponent + 1) := by
            rw [zpow_add_one₀ (by norm_num)]
            ring
        _ ≤ 2 ^ 52 * 2 ^ d'.exponent := by
            gcongr
            · norm_num
            · omega
        _ ≤ d'.magnitude := mul_le_mul_of_nonneg_right hle (two_zpow_pos _).le
    exact hless.ne hvalue
  have hsame : d.exponent = d'.exponent :=
    le_antisymm (hexponent h' h hvalue.symm) (hexponent h h' hvalue)
  rw [magnitude, magnitude, hsame] at hvalue
  have hmantissa : (d.mantissa : ℚ) = d'.mantissa :=
    mul_right_cancel₀ (two_zpow_pos _).ne' hvalue
  obtain ⟨negative, m, e⟩ := d
  obtain ⟨negative', m', e'⟩ := d'
  simp only at hsign hsame hmantissa
  rw [hsign, hsame, Nat.cast_inj.mp hmantissa]

/-- The largest magnitude of a double. -/
def largest : ℚ :=
  (2 ^ 53 - 1) * 2 ^ (971 : ℤ)

theorem largest_lt : largest < 2 ^ (1024 : ℤ) := by
  have hpower : (2 : ℚ) ^ (1024 : ℤ) = 2 ^ 53 * 2 ^ (971 : ℤ) := by
    rw [← zpow_natCast, ← zpow_add₀ (by norm_num)]
    rfl
  rw [largest, hpower]
  exact mul_lt_mul_of_pos_right (by norm_num) (two_zpow_pos _)

theorem Canonical.magnitude_le {d : Dyadic} (h : d.Canonical) : d.magnitude ≤ largest := by
  have hmantissa : (d.mantissa : ℚ) ≤ 2 ^ 53 - 1 := by
    have hlt : (d.mantissa : ℚ) + 1 ≤ 2 ^ 53 := by exact_mod_cast h.mantissa_lt
    linarith
  exact mul_le_mul hmantissa (zpow_le_zpow_right₀ (by norm_num) h.exponent_le)
    (two_zpow_pos _).le (by norm_num)

end Dyadic

/-! ### The power of two that a quotient reaches -/

section FloorLog2

variable {num den : ℕ}

theorem zpow_log2_le (hnum : 0 < num) : (2 : ℚ) ^ (num.log2 : ℤ) ≤ num := by
  rw [zpow_natCast]
  exact_mod_cast Nat.log2_self_le hnum.ne'

theorem lt_zpow_log2 (num : ℕ) : (num : ℚ) < 2 ^ ((num.log2 : ℤ) + 1) := by
  rw [← Nat.cast_succ, zpow_natCast]
  exact_mod_cast Nat.lt_log2_self

/-- What `floorLog2` tests: whether the quotient reaches the larger power of the two that come into
question. -/
theorem reached_iff (hden : 0 < den) (k : ℤ) :
    (if 0 ≤ k then decide (den * Nat.pow 2 k.toNat ≤ num)
      else decide (den ≤ num * Nat.pow 2 (-k).toNat)) = true ↔ (2 : ℚ) ^ k ≤ num / den := by
  have hpos : (0 : ℚ) < den := by exact_mod_cast hden
  rw [le_div_iff₀ hpos]
  split
  · next hk =>
    rw [decide_eq_true_eq, ← natCast_pow_toNat hk, ← Nat.cast_mul, Nat.cast_le, Nat.mul_comm]
  · next hk =>
    rw [decide_eq_true_eq, ← Nat.cast_le (α := ℚ), Nat.cast_mul, natCast_pow_toNat (by omega),
      zpow_neg, ← div_eq_mul_inv, le_div_iff₀ (two_zpow_pos k), mul_comm]

theorem floorLog2_eq (hden : 0 < den) : floorLog2 num den =
    if (2 : ℚ) ^ ((num.log2 : ℤ) - den.log2) ≤ num / den then (num.log2 : ℤ) - den.log2
    else (num.log2 : ℤ) - den.log2 - 1 :=
  if_congr (reached_iff hden _) rfl rfl

theorem zpow_floorLog2_le (hnum : 0 < num) (hden : 0 < den) :
    (2 : ℚ) ^ floorLog2 num den ≤ num / den := by
  have hpos : (0 : ℚ) < den := by exact_mod_cast hden
  rw [floorLog2_eq hden]
  split
  · next h => exact h
  · rw [le_div_iff₀ hpos]
    calc (2 : ℚ) ^ ((num.log2 : ℤ) - den.log2 - 1) * den
        ≤ 2 ^ ((num.log2 : ℤ) - den.log2 - 1) * 2 ^ ((den.log2 : ℤ) + 1) :=
          mul_le_mul_of_nonneg_left (lt_zpow_log2 den).le (two_zpow_pos _).le
      _ = 2 ^ (num.log2 : ℤ) := by
          rw [← zpow_add₀ (by norm_num)]
          congr 1
          ring
      _ ≤ num := zpow_log2_le hnum

theorem lt_zpow_floorLog2 (hden : 0 < den) :
    (num / den : ℚ) < 2 ^ (floorLog2 num den + 1) := by
  have hpos : (0 : ℚ) < den := by exact_mod_cast hden
  rw [floorLog2_eq hden]
  split
  · rw [div_lt_iff₀ hpos]
    calc (num : ℚ) < 2 ^ ((num.log2 : ℤ) + 1) := lt_zpow_log2 num
      _ = 2 ^ ((num.log2 : ℤ) - den.log2 + 1) * 2 ^ (den.log2 : ℤ) := by
          rw [← zpow_add₀ (by norm_num)]
          congr 1
          ring
      _ ≤ 2 ^ ((num.log2 : ℤ) - den.log2 + 1) * den :=
          mul_le_mul_of_nonneg_left (zpow_log2_le hden) (two_zpow_pos _).le
  · next h =>
    rw [sub_add_cancel]
    exact not_le.mp h

end FloorLog2

/-! ### The nearest double -/

/-- The unit in which a quotient is rounded. -/
def lastPlace (num den : ℕ) : ℤ :=
  max (-1074) (floorLog2 num den - 52)

/-- The quotient rounded to a number of units. -/
def roundedUnits (num den : ℕ) : ℕ :=
  if 0 ≤ lastPlace num den then roundDiv num (den * Nat.pow 2 (lastPlace num den).toNat)
  else roundDiv (num * Nat.pow 2 (-lastPlace num den).toNat) den

section Nearest

variable {num den : ℕ}

theorem nearestBits_eq (hnum : 0 < num) : nearestBits num den =
    min ((lastPlace num den + 1074).toNat * 2 ^ 52 + roundedUnits num den) (2047 * 2 ^ 52) :=
  if_neg hnum.ne'

theorem roundsTo_roundedUnits (num : ℕ) (hden : 0 < den) :
    RoundsTo (num / den / 2 ^ lastPlace num den) (roundedUnits num den) := by
  rw [roundedUnits]
  generalize lastPlace num den = e
  split
  · next he =>
    have hround : RoundsTo _ (roundDiv num (den * Nat.pow 2 e.toNat)) :=
      roundsTo_roundDiv num (Nat.mul_pos hden (Nat.pow_pos (by decide)))
    rwa [Nat.cast_mul, natCast_pow_toNat he, ← div_div] at hround
  · next he =>
    have hround := roundsTo_roundDiv (num * Nat.pow 2 (-e).toNat) hden
    rwa [Nat.cast_mul, natCast_pow_toNat (by omega), zpow_neg, ← div_eq_mul_inv,
      div_right_comm] at hround

theorem lt_pow_roundedUnits (hden : 0 < den) :
    (num / den / 2 ^ lastPlace num den : ℚ) < 2 ^ 53 := by
  rw [div_lt_iff₀ (two_zpow_pos _)]
  calc (num / den : ℚ) < 2 ^ (floorLog2 num den + 1) := lt_zpow_floorLog2 hden
    _ ≤ 2 ^ (53 + lastPlace num den) :=
        zpow_le_zpow_right₀ (by norm_num) (by rw [lastPlace]; omega)
    _ = 2 ^ 53 * 2 ^ lastPlace num den := by
        rw [zpow_add₀ (by norm_num)]
        norm_num

/-- A quotient that is rounded in a larger unit than the least has at least `2 ^ 52` units. -/
theorem pow_le_roundedUnits (hnum : 0 < num) (hden : 0 < den) (h : -1074 < lastPlace num den) :
    (2 : ℚ) ^ 52 ≤ num / den / 2 ^ lastPlace num den := by
  have hunit : floorLog2 num den = 52 + lastPlace num den := by
    rw [lastPlace] at h ⊢
    omega
  rw [le_div_iff₀ (two_zpow_pos _)]
  calc (2 : ℚ) ^ 52 * 2 ^ lastPlace num den = 2 ^ floorLog2 num den := by
        rw [hunit, zpow_add₀ (by norm_num)]
        norm_num
    _ ≤ num / den := zpow_floorLog2_le hnum hden

/-- Counting the quotient in units and rounding it gives a double, unless it is too large. -/
theorem exists_canonical (negative : Bool) (hnum : 0 < num) (hden : 0 < den)
    (hmax : (num / den : ℚ) ≤ Dyadic.largest) : ∃ d : Dyadic, d.Canonical ∧
      d.negative = negative ∧ d.magnitude = roundedUnits num den * 2 ^ lastPlace num den ∧
      d.bits = nearestBits num den + if negative then Nat.pow 2 63 else 0 := by
  have hround := roundsTo_roundedUnits num hden
  have hpow : Nat.pow 2 63 = 2 ^ 63 := rfl
  have hle : -1074 ≤ lastPlace num den := le_max_left ..
  have hunits : roundedUnits num den ≤ 2 ^ 53 :=
    hround.mono (RoundsTo.natCast _) (by exact_mod_cast (lt_pow_roundedUnits hden).le)
  have hnormal (h : -1074 < lastPlace num den) : 2 ^ 52 ≤ roundedUnits num den :=
    (RoundsTo.natCast _).mono hround (by exact_mod_cast pow_le_roundedUnits hnum hden h)
  have hexponent : lastPlace num den ≤ 971 := by
    have hpower : (2 : ℚ) ^ floorLog2 num den < 2 ^ (1024 : ℤ) :=
      calc (2 : ℚ) ^ floorLog2 num den ≤ num / den := zpow_floorLog2_le hnum hden
        _ ≤ Dyadic.largest := hmax
        _ < 2 ^ (1024 : ℤ) := Dyadic.largest_lt
    have hlog : floorLog2 num den < 1024 := (zpow_lt_zpow_iff_right₀ (by norm_num)).mp hpower
    rw [lastPlace]
    omega
  -- in the largest unit the quotient is below the next power of two, and stays there
  have hlast (h : lastPlace num den = 971) : roundedUnits num den < 2 ^ 53 := by
    have hless : roundedUnits num den ≤ 2 ^ 53 - 1 := by
      refine hround.mono (RoundsTo.natCast _) ?_
      have hcast : ((2 ^ 53 - 1 : ℕ) : ℚ) = 2 ^ 53 - 1 := by norm_num
      rwa [h, div_le_iff₀ (two_zpow_pos _), hcast]
    omega
  rw [nearestBits_eq hnum, hpow]
  generalize roundedUnits num den = q at *
  generalize lastPlace num den = e at *
  by_cases hq : q = 2 ^ 53
  · -- the next power of two has its own exponent
    refine ⟨⟨negative, 2 ^ 52, e + 1⟩, ⟨by norm_num, fun _ => le_rfl, by simp only; omega, ?_⟩, rfl,
      ?_, ?_⟩
    · simp only
      by_contra hgreater
      exact absurd hq (hlast (by omega)).ne
    · rw [Dyadic.magnitude, hq, zpow_add_one₀ (by norm_num)]
      push_cast
      ring
    · simp only [Dyadic.bits]
      omega
  · refine ⟨⟨negative, q, e⟩, ⟨by simp only; omega, hnormal, hle, hexponent⟩, rfl, rfl, ?_⟩
    simp only [Dyadic.bits]
    omega

/-- No double is nearer than the rounded number of units. -/
theorem nearest_roundedUnits (hnum : 0 < num) (hden : 0 < den) {d : Dyadic} (hd : d.Canonical) :
    |(roundedUnits num den : ℚ) * 2 ^ lastPlace num den - num / den| ≤
      |d.magnitude - num / den| := by
  have hpos := two_zpow_pos (lastPlace num den)
  have hround := roundsTo_roundedUnits num hden
  have hmultiple (z : ℤ) :
      |(roundedUnits num den : ℚ) * 2 ^ lastPlace num den - num / den| ≤
        |(z : ℚ) * 2 ^ lastPlace num den - num / den| := by
    have hnear := mul_le_mul_of_nonneg_right (hround.nearest z) hpos.le
    rw [← abs_of_pos hpos, ← abs_mul, ← abs_mul, sub_mul, sub_mul, abs_of_pos hpos,
      div_mul_cancel₀ _ hpos.ne'] at hnear
    rwa [abs_sub_comm, abs_sub_comm (_ * _)]
  by_cases hunit : lastPlace num den ≤ d.exponent
  · have hvalue : d.magnitude =
        ((d.mantissa * 2 ^ (d.exponent - lastPlace num den).toNat : ℤ) : ℚ) *
          2 ^ lastPlace num den := by
      have hsplit : (2 : ℚ) ^ d.exponent =
          2 ^ (d.exponent - lastPlace num den).toNat * 2 ^ lastPlace num den := by
        rw [← zpow_natCast, ← zpow_add₀ (by norm_num)]
        congr 1
        omega
      rw [Dyadic.magnitude, hsplit]
      push_cast
      ring
    rw [hvalue]
    exact hmultiple _
  · -- a double of a smaller unit is below `2 ^ 52` units, and the quotient is not
    have hbelow : d.magnitude ≤ 2 ^ 52 * 2 ^ lastPlace num den := by
      have hmantissa : (d.mantissa : ℚ) ≤ 2 ^ 53 := by exact_mod_cast hd.mantissa_lt.le
      calc d.magnitude ≤ 2 ^ 53 * 2 ^ (lastPlace num den - 1) :=
            mul_le_mul hmantissa (zpow_le_zpow_right₀ (by norm_num) (by omega))
              (two_zpow_pos _).le (by norm_num)
        _ = 2 ^ 52 * 2 ^ lastPlace num den := by
            rw [zpow_sub_one₀ (by norm_num)]
            ring
    have habove : (2 : ℚ) ^ 52 * 2 ^ lastPlace num den ≤ num / den := by
      have hleast := hd.le_exponent
      rw [← le_div_iff₀ hpos]
      exact pow_le_roundedUnits hnum hden (by omega)
    have hcast : ((2 ^ 52 : ℤ) : ℚ) = 2 ^ 52 := by norm_num
    have hnear := hmultiple (2 ^ 52)
    rw [hcast, abs_of_nonpos (sub_nonpos.mpr habove)] at hnear
    rw [abs_of_nonpos (sub_nonpos.mpr (hbelow.trans habove))]
    linarith

/-- No double is nearer to a quotient than `nearestFloat`, unless the quotient is too large. -/
theorem exists_nearest (negative : Bool) (num : ℕ) (hden : 0 < den)
    (hmax : (num / den : ℚ) ≤ Dyadic.largest) :
    ∃ d : Dyadic, Dyadic.ofFloat? (nearestFloat negative num den) = some d ∧
      d.negative = negative ∧
      ∀ d' : Dyadic, d'.Canonical → |d.magnitude - num / den| ≤ |d'.magnitude - num / den| := by
  rcases Nat.eq_zero_or_pos num with rfl | hnum
  · let d : Dyadic := ⟨negative, 0, -1074⟩
    have hd : d.Canonical := ⟨by norm_num [d], by norm_num [d], le_rfl, by norm_num [d]⟩
    have hbits : d.bits = nearestBits 0 den + if negative then Nat.pow 2 63 else 0 := by
      simp [nearestBits, Dyadic.bits, d]
    have hvalue : d.magnitude = 0 := d.magnitude_eq_zero_iff.mpr rfl
    refine ⟨d, ?_, rfl, fun d' _ => ?_⟩
    · rw [nearestFloat, ← hbits]
      exact Dyadic.ofFloat?_ofBits hd
    · rw [hvalue, Nat.cast_zero, zero_div, sub_zero, abs_zero]
      exact abs_nonneg _
  · obtain ⟨d, hd, hnegative, hvalue, hbits⟩ := exists_canonical negative hnum hden hmax
    refine ⟨d, ?_, hnegative, fun d' hd' => ?_⟩
    · rw [nearestFloat, ← hbits]
      exact Dyadic.ofFloat?_ofBits hd
    · rw [hvalue]
      exact nearest_roundedUnits hnum hden hd'

end Nearest

end Reckon.Number
