/-
The double nearest to a cube root.

The number is scaled until its root is above `2 ^ 54`. Scaled in the same way, the doubles that are
not far below the root are even whole numbers, so the point midway between two of them is whole. A
root between two whole numbers therefore lies on the same side of such a midpoint as the point
halfway between the two, and what is nearest to that point is nearest to the root.

* `abs_sub_le_abs_sub_iff` : which of two numbers is nearer.
* `abs_even_sub_le` : even numbers at a point between two whole numbers.
* `Dyadic.rootCubed`, `Dyadic.rootFloor` : the whole number of which the root is taken, and the whole
  part of the root.
* `Dyadic.IsNearest` : no double is nearer to a number.
* `exists_nearest_cubeRoot` : no double is nearer to the exact root than `cubeRoot`.
-/
import Mathlib
import Reckon.Number.CubeRoot
import Reckon.Proofs.Nearest

namespace Reckon.Number

/-! ### Nearer numbers -/

section Nearer

variable {K : Type} [Field K] [LinearOrder K] [IsStrictOrderedRing K]

theorem abs_sub_le_abs_sub_iff {a b t : K} :
    |a - t| ≤ |b - t| ↔ 0 ≤ (b - a) * (a + b - 2 * t) := by
  have hsquares : (b - t) ^ 2 - (a - t) ^ 2 = (b - a) * (a + b - 2 * t) := by ring
  rw [← sq_le_sq, ← hsquares, sub_nonneg]

/-- Scaling does not change which number is nearer. -/
theorem abs_sub_le_iff_scaled {a b t s : K} (hs : 0 < s) :
    |a - t| ≤ |b - t| ↔ |a * s - t * s| ≤ |b * s - t * s| := by
  rw [← sub_mul, ← sub_mul, abs_mul, abs_mul]
  exact (mul_le_mul_iff_left₀ (abs_pos.mpr hs.ne')).symm

end Nearer

/-- Of two even numbers, the one nearer to the middle between whole numbers is nearer to all that
lies between them. -/
theorem abs_even_sub_le {a b r : ℤ} {t : ℝ}
    (h : |((2 * a : ℤ) : ℝ) - (r + 1 / 2)| ≤ |((2 * b : ℤ) : ℝ) - (r + 1 / 2)|)
    (hle : (r : ℝ) ≤ t) (hge : t ≤ r + 1) :
    |((2 * a : ℤ) : ℝ) - t| ≤ |((2 * b : ℤ) : ℝ) - t| := by
  rw [abs_sub_le_abs_sub_iff] at h ⊢
  have hmiddle : 0 ≤ (b - a) * (2 * (a + b) - (2 * r + 1)) := by
    have hreal : (0 : ℝ) ≤ ((b - a) * (2 * (a + b) - (2 * r + 1)) : ℤ) := by
      push_cast at h ⊢
      linarith
    exact_mod_cast hreal
  push_cast
  -- the middle of the even numbers is whole, so it lies beyond all of the interval
  rcases lt_trichotomy a b with hab | rfl | hab
  · have hbeyond : r + 1 ≤ a + b := by
      have hsign := nonneg_of_mul_nonneg_right hmiddle (sub_pos.mpr hab)
      omega
    have hlt : (a : ℝ) < b := by exact_mod_cast hab
    have hbeyond : (r + 1 : ℝ) ≤ a + b := by exact_mod_cast hbeyond
    exact mul_nonneg (by linarith) (by linarith)
  · simp
  · have hbeyond : a + b ≤ r := by
      have hsign := nonpos_of_mul_nonneg_right hmiddle (sub_neg.mpr hab)
      omega
    have hlt : (b : ℝ) < a := by exact_mod_cast hab
    have hbeyond : (a + b : ℝ) ≤ r := by exact_mod_cast hbeyond
    exact mul_nonneg_of_nonpos_of_nonpos (by linarith) (by linarith)

/-! ### Scaled doubles -/

namespace Dyadic

/-- A scaled double is small or even. -/
theorem Canonical.lt_or_even {d : Dyadic} (h : d.Canonical) (k : ℕ) :
    d.magnitude * 2 ^ k < 2 ^ 53 ∨ ∃ z : ℤ, d.magnitude * 2 ^ k = (2 * z : ℤ) := by
  have hscaled : d.magnitude * 2 ^ k = d.mantissa * 2 ^ (d.exponent + k) := by
    rw [magnitude, zpow_add₀ (by norm_num), zpow_natCast, mul_assoc]
  rw [hscaled]
  rcases le_or_gt (d.exponent + k) 0 with hsmall | hlarge
  · left
    have hmantissa : (d.mantissa : ℚ) < 2 ^ 53 := by exact_mod_cast h.mantissa_lt
    calc (d.mantissa : ℚ) * 2 ^ (d.exponent + k) ≤ d.mantissa * 1 := by
          gcongr
          exact zpow_le_one_of_nonpos₀ (by norm_num) hsmall
      _ < 2 ^ 53 := by rwa [mul_one]
  · right
    obtain ⟨j, hj⟩ := Int.eq_ofNat_of_zero_le (show 0 ≤ d.exponent + k - 1 by omega)
    refine ⟨d.mantissa * 2 ^ j, ?_⟩
    rw [show d.exponent + k = (j + 1 : ℕ) by omega, zpow_natCast, pow_succ]
    push_cast
    ring

/-- The places by which a root is scaled. -/
def rootPlaces (d : Dyadic) : ℕ :=
  ((164 - d.exponent) / 3).toNat

/-- The whole number of which the root is taken. -/
def rootCubed (d : Dyadic) : ℕ :=
  d.mantissa * Nat.pow 2 (d.exponent + 3 * d.rootPlaces).toNat

/-- The whole part of the scaled root. -/
def rootFloor (d : Dyadic) : ℕ :=
  wholeCubeRoot d.rootCubed

theorem rootCubed_eq (d : Dyadic) : (d.rootCubed : ℚ) = d.magnitude * (2 ^ d.rootPlaces) ^ 3 := by
  have hexponent : 0 ≤ d.exponent + 3 * d.rootPlaces := by
    rw [rootPlaces]
    omega
  rw [rootCubed, Nat.cast_mul, natCast_pow_toNat hexponent, magnitude, zpow_add₀ (by norm_num),
    ← pow_mul, mul_assoc, mul_comm 3]
  norm_cast

theorem rootFloor_pow_le (d : Dyadic) : d.rootFloor ^ 3 ≤ d.rootCubed := by
  have h := wholeCubeRoot_le d.rootCubed
  rwa [← rootFloor, ← pow_three'] at h

theorem lt_rootFloor_succ_pow (d : Dyadic) : d.rootCubed < (d.rootFloor + 1) ^ 3 := by
  have h := lt_wholeCubeRoot_succ d.rootCubed
  rwa [← rootFloor, ← pow_three'] at h

/-- The root is scaled until it is above `2 ^ 54`. -/
theorem le_rootFloor {d : Dyadic} (h : 0 < d.mantissa) : 2 ^ 54 ≤ d.rootFloor := by
  have hexponent : 162 ≤ (d.exponent + 3 * d.rootPlaces).toNat := by
    rw [rootPlaces]
    omega
  have hlarge : (2 ^ 54) ^ 3 < (d.rootFloor + 1) ^ 3 :=
    calc (2 ^ 54) ^ 3 = 1 * 2 ^ 162 := by norm_num
      _ ≤ d.mantissa * 2 ^ (d.exponent + 3 * d.rootPlaces).toNat :=
          Nat.mul_le_mul h (Nat.pow_le_pow_right (by norm_num) hexponent)
      _ < (d.rootFloor + 1) ^ 3 := d.lt_rootFloor_succ_pow
  exact Nat.lt_succ_iff.mp (lt_of_pow_lt_pow_left₀ 3 (Nat.zero_le _) hlarge)

theorem cubeRoot_eq (d : Dyadic) : d.cubeRoot =
    if d.rootFloor ^ 3 = d.rootCubed then
      nearestFloat d.negative d.rootFloor (Nat.pow 2 d.rootPlaces)
    else nearestFloat d.negative (2 * d.rootFloor + 1) (2 * Nat.pow 2 d.rootPlaces) := by
  rw [pow_three']
  rfl

/-- Twice the root of a double is no larger than doubles are. -/
theorem Canonical.two_mul_rootFloor_le {d : Dyadic} (h : d.Canonical) :
    (2 * (d.rootFloor / 2 ^ d.rootPlaces) : ℚ) ≤ largest := by
  have hlarge : (8 : ℚ) ≤ largest := by
    have hone : (1 : ℚ) ≤ 2 ^ (971 : ℤ) := one_le_zpow₀ (by norm_num) (by norm_num)
    calc (8 : ℚ) ≤ 2 ^ 53 - 1 := by norm_num
      _ ≤ largest := le_mul_of_one_le_right (by norm_num) hone
  have hpos : (0 : ℚ) < 2 ^ d.rootPlaces := by positivity
  have hroot : (d.rootFloor / 2 ^ d.rootPlaces : ℚ) ^ 3 ≤ largest := by
    have hcubed : ((d.rootFloor ^ 3 : ℕ) : ℚ) ≤ d.rootCubed := by
      exact_mod_cast d.rootFloor_pow_le
    rw [rootCubed_eq] at hcubed
    rw [div_pow, div_le_iff₀ (by positivity)]
    push_cast at hcubed
    exact hcubed.trans (mul_le_mul_of_nonneg_right h.magnitude_le (by positivity))
  generalize (d.rootFloor / 2 ^ d.rootPlaces : ℚ) = s at hroot
  by_contra hgreater
  have hs : 4 < s := by linarith
  nlinarith [mul_pos (show 0 < s by linarith) (show 0 < s - 4 by linarith)]

end Dyadic

/-! ### The nearest root -/

section Root

variable {d : Dyadic} {root : ℝ}

theorem scaled_root_pow (hroot : root ^ 3 = d.magnitude) :
    (root * 2 ^ d.rootPlaces) ^ 3 = d.rootCubed := by
  rw [mul_pow, hroot]
  exact_mod_cast (d.rootCubed_eq).symm

theorem rootFloor_le (hnonneg : 0 ≤ root) (hroot : root ^ 3 = d.magnitude) :
    (d.rootFloor : ℝ) ≤ root * 2 ^ d.rootPlaces := by
  have hcubed : (d.rootFloor : ℝ) ^ 3 ≤ (root * 2 ^ d.rootPlaces) ^ 3 := by
    rw [scaled_root_pow hroot]
    exact_mod_cast d.rootFloor_pow_le
  exact le_of_pow_le_pow_left₀ (by norm_num) (by positivity) hcubed

theorem le_rootFloor_succ (hroot : root ^ 3 = d.magnitude) :
    root * 2 ^ d.rootPlaces ≤ d.rootFloor + 1 := by
  have hcubed : (root * 2 ^ d.rootPlaces) ^ 3 ≤ (d.rootFloor + 1 : ℝ) ^ 3 := by
    rw [scaled_root_pow hroot]
    exact_mod_cast d.lt_rootFloor_succ_pow.le
  exact le_of_pow_le_pow_left₀ (by norm_num) (by positivity) hcubed

/-- No double is nearer to the number, the sign apart. -/
def Dyadic.IsNearest (c : Dyadic) (t : ℝ) : Prop :=
  ∀ d' : Dyadic, d'.Canonical → |(c.magnitude : ℝ) - t| ≤ |(d'.magnitude : ℝ) - t|

/-- The double that is `2 ^ 54` when it is scaled. -/
theorem exists_canonical_scaled (hd : d.Canonical) : ∃ e : Dyadic, e.Canonical ∧
    e.magnitude * 2 ^ d.rootPlaces = ((2 * 2 ^ 53 : ℤ) : ℚ) := by
  have hexponent := hd.le_exponent
  refine ⟨⟨false, 2 ^ 52, 2 - d.rootPlaces⟩, ⟨by norm_num, fun _ => le_rfl, ?_, ?_⟩, ?_⟩
  · simp only [Dyadic.rootPlaces]
    omega
  · simp only [Dyadic.rootPlaces]
    omega
  · rw [Dyadic.magnitude, mul_assoc, zpow_sub₀ (by norm_num), zpow_natCast,
      div_mul_cancel₀ _ (by positivity)]
    norm_num

/-- What is nearest to the middle of the whole numbers around the scaled root is nearest to the
root. -/
theorem isNearest_of_middle (hd : d.Canonical) (hpos : 0 < d.mantissa) {c : Dyadic}
    (hc : c.Canonical) (hnear : ∀ d' : Dyadic, d'.Canonical →
      |c.magnitude * 2 ^ d.rootPlaces - (d.rootFloor + 1 / 2)| ≤
        |d'.magnitude * 2 ^ d.rootPlaces - (d.rootFloor + 1 / 2)|)
    (hnonneg : 0 ≤ root) (hroot : root ^ 3 = d.magnitude) : c.IsNearest root := by
  have hle := rootFloor_le hnonneg hroot
  have hge := le_rootFloor_succ hroot
  have hfloor : (2 ^ 54 : ℚ) ≤ d.rootFloor := by exact_mod_cast Dyadic.le_rootFloor hpos
  obtain ⟨e, he, hevalue⟩ := exists_canonical_scaled hd
  have hecloser := hnear e he
  rw [hevalue] at hecloser
  -- as near to the middle as this double, the nearest one is not small, but even
  obtain ⟨a, ha⟩ : ∃ z : ℤ, c.magnitude * 2 ^ d.rootPlaces = (2 * z : ℤ) := by
    refine (hc.lt_or_even d.rootPlaces).resolve_left fun hsmall => ?_
    rw [abs_of_neg (by linarith), abs_of_nonpos (by push_cast; linarith)] at hecloser
    push_cast at hecloser
    linarith
  have heven (b : ℤ) (h : |((2 * a : ℤ) : ℚ) - (d.rootFloor + 1 / 2)| ≤
      |((2 * b : ℤ) : ℚ) - (d.rootFloor + 1 / 2)|) :
      |((2 * a : ℤ) : ℝ) - root * 2 ^ d.rootPlaces| ≤
        |((2 * b : ℤ) : ℝ) - root * 2 ^ d.rootPlaces| := by
    refine abs_even_sub_le (r := d.rootFloor) ?_ (by exact_mod_cast hle) (by exact_mod_cast hge)
    have hcast := (Rat.cast_le (K := ℝ)).mpr h
    push_cast at hcast ⊢
    exact hcast
  have hareal : (c.magnitude : ℝ) * 2 ^ d.rootPlaces = ((2 * a : ℤ) : ℝ) := by exact_mod_cast ha
  intro d' hd'
  rw [abs_sub_le_iff_scaled (s := 2 ^ d.rootPlaces) (by positivity), hareal]
  rw [ha] at hecloser
  rcases hd'.lt_or_even d.rootPlaces with hsmall | ⟨b, hb⟩
  · -- a small double is further away than `2 ^ 54` is
    have hsmall : (d'.magnitude : ℝ) * 2 ^ d.rootPlaces < 2 ^ 53 := by exact_mod_cast hsmall
    have hfloor : (2 ^ 54 : ℝ) ≤ d.rootFloor := by exact_mod_cast hfloor
    refine (heven _ hecloser).trans ?_
    push_cast
    rw [abs_of_nonpos (by linarith), abs_of_nonpos (by linarith)]
    linarith
  · have hbreal : (d'.magnitude : ℝ) * 2 ^ d.rootPlaces = ((2 * b : ℤ) : ℝ) := by
      exact_mod_cast hb
    have hcloser := hnear d' hd'
    rw [ha, hb] at hcloser
    rw [hbreal]
    exact heven b hcloser

/-- A scaled root that is whole gives the root as a quotient. -/
theorem eq_div_of_whole (hnonneg : 0 ≤ root) (hroot : root ^ 3 = d.magnitude)
    (h : d.rootFloor ^ 3 = d.rootCubed) : root = d.rootFloor / 2 ^ d.rootPlaces := by
  refine eq_div_of_mul_eq (by positivity) ?_
  refine (pow_left_inj₀ (by positivity) (by positivity) three_ne_zero).mp ?_
  rw [scaled_root_pow hroot]
  exact_mod_cast h.symm

end Root

section Cases

variable {d : Dyadic}

theorem pow_rootPlaces_pos (d : Dyadic) : 0 < Nat.pow 2 d.rootPlaces :=
  Nat.pow_pos (by decide)

theorem cast_pow_rootPlaces (d : Dyadic) :
    ((Nat.pow 2 d.rootPlaces : ℕ) : ℚ) = 2 ^ d.rootPlaces :=
  Nat.cast_pow 2 _

theorem exists_nearest_of_whole (hd : d.Canonical) (h : d.rootFloor ^ 3 = d.rootCubed) :
    ∃ c : Dyadic, Dyadic.ofFloat?
        (nearestFloat d.negative d.rootFloor (Nat.pow 2 d.rootPlaces)) = some c ∧
      c.negative = d.negative ∧
      ∀ root : ℝ, 0 ≤ root → root ^ 3 = d.magnitude → c.IsNearest root := by
  have hfloor : (0 : ℚ) ≤ d.rootFloor / 2 ^ d.rootPlaces := by positivity
  have hmax := hd.two_mul_rootFloor_le
  obtain ⟨c, hc, hsign, hnear⟩ := exists_nearest d.negative d.rootFloor (pow_rootPlaces_pos d)
    (by rw [cast_pow_rootPlaces]; linarith)
  refine ⟨c, hc, hsign, fun root hnonneg hroot d' hd' => ?_⟩
  have hnear := (Rat.cast_le (K := ℝ)).mpr (hnear d' hd')
  rw [cast_pow_rootPlaces] at hnear
  push_cast at hnear
  rwa [eq_div_of_whole hnonneg hroot h]

theorem exists_nearest_of_between (hd : d.Canonical) (h : d.rootFloor ^ 3 ≠ d.rootCubed) :
    ∃ c : Dyadic, Dyadic.ofFloat?
        (nearestFloat d.negative (2 * d.rootFloor + 1) (2 * Nat.pow 2 d.rootPlaces)) = some c ∧
      c.negative = d.negative ∧
      ∀ root : ℝ, 0 ≤ root → root ^ 3 = d.magnitude → c.IsNearest root := by
  have hscale : (0 : ℚ) < 2 ^ d.rootPlaces := by positivity
  have hpos : 0 < d.mantissa := by
    by_contra hzero
    have hcubed : d.rootCubed = 0 := by
      rw [Dyadic.rootCubed, Nat.eq_zero_of_not_pos hzero, Nat.zero_mul]
    have hle := d.rootFloor_pow_le
    omega
  have hfloor : (2 ^ 54 : ℚ) ≤ d.rootFloor := by exact_mod_cast Dyadic.le_rootFloor hpos
  have hquotient : ((2 * d.rootFloor + 1 : ℕ) : ℚ) / (2 * Nat.pow 2 d.rootPlaces : ℕ) =
      (d.rootFloor + 1 / 2) / 2 ^ d.rootPlaces := by
    rw [Nat.cast_mul, cast_pow_rootPlaces]
    push_cast
    field_simp
  have hmax : ((2 * d.rootFloor + 1 : ℕ) : ℚ) / (2 * Nat.pow 2 d.rootPlaces : ℕ) ≤
      Dyadic.largest := by
    refine le_trans ?_ hd.two_mul_rootFloor_le
    rw [hquotient, ← mul_div_assoc]
    exact div_le_div_of_nonneg_right (by linarith) hscale.le
  obtain ⟨c, hc, hsign, hnear⟩ := exists_nearest d.negative (2 * d.rootFloor + 1)
    (Nat.mul_pos two_pos (pow_rootPlaces_pos d)) hmax
  refine ⟨c, hc, hsign, fun root => isNearest_of_middle hd hpos
    (Dyadic.ofFloat?_eq_some_iff.mp hc).1 fun d' hd' => ?_⟩
  have hnear := (abs_sub_le_iff_scaled hscale).mp (hnear d' hd')
  rwa [hquotient, div_mul_cancel₀ _ hscale.ne'] at hnear

end Cases

/-- The cube root of a finite double is finite, of the same sign, and no double is nearer to the
exact root. -/
theorem exists_nearest_cubeRoot {x : Float} {d : Dyadic} (hd : Dyadic.ofFloat? x = some d) :
    ∃ c : Dyadic, Dyadic.ofFloat? (cubeRoot x) = some c ∧ c.negative = d.negative ∧
      ∀ root : ℝ, 0 ≤ root → root ^ 3 = d.magnitude → c.IsNearest root := by
  have hcanonical := (Dyadic.ofFloat?_eq_some_iff.mp hd).1
  rw [cubeRoot, hd]
  show ∃ c, Dyadic.ofFloat? d.cubeRoot = some c ∧ _
  rw [Dyadic.cubeRoot_eq]
  split
  · next hwhole => exact exists_nearest_of_whole hcanonical hwhole
  · next hbetween => exact exists_nearest_of_between hcanonical hbetween

end Reckon.Number
