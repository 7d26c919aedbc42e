/-
Products and quotients of doubles.

A product or a quotient is worked out as a mantissa with an exponent and two residual bits, which
tell where the exact result lies between that mantissa and the next one. Shifting a mantissa keeps
what its bits stand for. So the mantissa that is rounded in the end is what the exact result rounds
to, counted in the units of the double that it becomes.

* `Represents` : what a mantissa with its residual bits stands for.
* `Represents.shiftRight`, `Represents.roundsTo` : shifting and rounding it.
* `rounded_roundWithAccuracy` : the result is the nearest double.
* `rounded_mul`, `rounded_div` : products and quotients of finite doubles.
-/
import Reckon.Proofs.DoubleOrder

namespace Reckon.Number

open Float.Model Float.Model.UnpackedFloat

/-! ### Residual bits -/

/-- A mantissa with its two residual bits stands for a number between it and the next one. The
first bit tells whether the upper half is reached, and the second whether the number is anything
but the mantissa or the middle. -/
structure Represents (em : ExtendedMantissa) (r : ℚ) : Prop where
  le : (em.mantissa : ℚ) ≤ r
  lt : r < em.mantissa + 1
  roundBit : em.roundBit = true ↔ em.mantissa + 1 / 2 ≤ r
  stickyBit : em.stickyBit = true ↔ r ≠ em.mantissa ∧ r ≠ em.mantissa + 1 / 2

theorem represents_exact (m : ℕ) : Represents (.ofMantissaAndAccuracy m .exact) m :=
  ⟨le_rfl, by simp [ExtendedMantissa.ofMantissaAndAccuracy],
    by simp [ExtendedMantissa.ofMantissaAndAccuracy],
    by simp [ExtendedMantissa.ofMantissaAndAccuracy]⟩

/-- The bits for a quotient of natural numbers. -/
theorem represents_fraction (num : ℕ) {den : ℕ} (hden : 0 < den) :
    Represents (.ofMantissaAndAccuracy (num / den) (accuracyOfFraction (num % den) den))
      (num / den) := by
  have hpos : (0 : ℚ) < den := by exact_mod_cast hden
  have hsplit : (num : ℚ) / den = (num / den : ℕ) + (num % den : ℕ) / den := by
    rw [div_eq_iff hpos.ne', add_mul, div_mul_cancel₀ _ hpos.ne']
    exact_mod_cast (Nat.div_add_mod' num den).symm
  have hlt : num % den < den := Nat.mod_lt _ hden
  rw [hsplit]
  generalize num / den = q
  generalize num % den = k at hlt
  have hone : (k : ℚ) / den < 1 := by
    rw [div_lt_one hpos]
    exact_mod_cast hlt
  have hnonneg : (0 : ℚ) ≤ k / den := by positivity
  have hzero : (k : ℚ) / den = 0 ↔ k = 0 := by
    rw [div_eq_zero_iff, or_iff_left hpos.ne', Nat.cast_eq_zero]
  have hhalf : (1 : ℚ) / 2 ≤ k / den ↔ den ≤ 2 * k := by
    rw [div_le_div_iff₀ (by norm_num) hpos, one_mul, mul_comm]
    exact_mod_cast Iff.rfl
  have hmiddle : (k : ℚ) / den = 1 / 2 ↔ 2 * k = den := by
    rw [div_eq_div_iff hpos.ne' (by norm_num), one_mul, mul_comm]
    exact_mod_cast Iff.rfl
  rw [accuracyOfFraction]
  split
  · next h =>
    rw [h, Nat.cast_zero, zero_div, add_zero]
    exact represents_exact q
  · next h =>
    have hcompare := (compare_iff (2 * k) den).mp rfl
    cases ho : compare (2 * k) den <;> rw [ho] at hcompare <;>
      simp only [Ordering.Compares] at hcompare <;>
      refine ⟨?_, ?_, ?_, ?_⟩ <;>
      simp only [ExtendedMantissa.ofMantissaAndAccuracy, le_add_iff_nonneg_right,
        add_lt_add_iff_left, add_le_add_iff_left, add_right_inj, add_eq_left, ne_eq, hzero, hhalf,
        hmiddle, hnonneg, hone, h, reduceCtorEq, not_false_eq_true, true_and, true_iff, false_iff] <;>
      omega

theorem Represents.shiftRightOne {em : ExtendedMantissa} {r : ℚ} (h : Represents em r) :
    Represents em.shiftRightOne (r / 2) := by
  obtain ⟨m, round, sticky⟩ := em
  obtain ⟨hle, hlt, hround, hsticky⟩ := h
  have hsplit : (m : ℚ) = 2 * (m / 2 : ℕ) + (m % 2 : ℕ) := by
    exact_mod_cast (Nat.div_add_mod m 2).symm
  simp only at hle hlt hround hsticky
  -- the bits that are dropped tell whether the number was the mantissa
  have hexact : (round || sticky) = true ↔ r ≠ m := by
    rw [Bool.or_eq_true, hround, hsticky]
    constructor
    · rintro (h | h)
      · intro heq
        linarith
      · exact h.1
    · intro hne
      by_cases hhalf : (m : ℚ) + 1 / 2 ≤ r
      · exact Or.inl hhalf
      · exact Or.inr ⟨hne, fun heq => hhalf heq.ge⟩
  rcases Nat.mod_two_eq_zero_or_one m with hm | hm <;> rw [hm] at hsplit <;> push_cast at hsplit <;>
    refine ⟨?_, ?_, ?_, ?_⟩ <;> simp only [ExtendedMantissa.shiftRightOne, hm, hexact]
  · linarith
  · linarith
  · simp only [bne_self_eq_false, Bool.false_eq_true, false_iff, not_le]
    linarith
  · constructor
    · intro hne
      exact ⟨fun h => hne (by linarith), fun h => by linarith⟩
    · rintro ⟨hne, -⟩ heq
      exact hne (by linarith)
  · linarith
  · linarith
  · simp only [bne_iff_ne, ne_eq, one_ne_zero, not_false_eq_true, true_iff]
    linarith
  · constructor
    · intro hne
      exact ⟨fun h => by linarith, fun h => hne (by linarith)⟩
    · rintro ⟨-, hne⟩ heq
      exact hne (by linarith)

theorem Represents.shiftRight {em : ExtendedMantissa} {r : ℚ} (h : Represents em r) (n : ℕ) :
    Represents (em >>> n) (r / 2 ^ n) := by
  show Represents (n.repeat ExtendedMantissa.shiftRightOne em) _
  induction n with
  | zero => simpa [Nat.repeat] using h
  | succ n ih =>
    rw [Nat.repeat, pow_succ, ← div_div]
    exact ih.shiftRightOne

/-- The rounded mantissa is what the number rounds to. -/
theorem Represents.roundsTo {em : ExtendedMantissa} {r : ℚ} (h : Represents em r) :
    RoundsTo r em.roundedMantissa := by
  obtain ⟨m, round, sticky⟩ := em
  obtain ⟨hle, hlt, hround, hsticky⟩ := h
  simp only at hle hlt hround hsticky
  cases round <;> cases sticky <;>
    simp only [Bool.false_eq_true, false_iff, true_iff, not_and_or, not_ne_iff, not_le]
      at hround hsticky
  · -- it is the mantissa
    rcases hsticky with rfl | heq
    · exact RoundsTo.natCast m
    · linarith
  · -- it lies in the lower half
    show RoundsTo r m
    have hlow : |r - m| < 1 / 2 := by
      rw [abs_lt]
      constructor <;> linarith
    exact ⟨hlow.le, fun htie => absurd htie hlow.ne⟩
  · -- it is the middle, so the even neighbour is taken
    show RoundsTo r (m + m % 2)
    rcases hsticky with heq | rfl
    · linarith
    · rcases Nat.even_or_odd m with heven | hodd
      · rw [Nat.even_iff.mp heven, Nat.add_zero]
        exact ⟨by norm_num [abs_of_pos], fun _ => heven⟩
      · rw [Nat.odd_iff.mp hodd]
        exact ⟨by push_cast; norm_num [abs_le], fun _ => hodd.add_one⟩
  · -- it lies in the upper half
    show RoundsTo r (m + 1)
    have hne : (m : ℚ) + 1 / 2 < r := lt_of_le_of_ne hround hsticky.2.symm
    have hlow : |r - (m + 1 : ℕ)| < 1 / 2 := by
      push_cast
      rw [abs_lt]
      constructor <;> linarith
    exact ⟨hlow.le, fun htie => absurd htie hlow.ne⟩

/-! ### Writing the result -/

theorem targetExponent_eq (m : ℕ) (e : ℤ) :
    Format.binary64.targetExponent (totalExponent m e) = max ((m.log2 : ℤ) + 1 + e - 53) (-1074) :=
  rfl

theorem log2_le_of_lt {m : ℕ} (h : m < 2 ^ 53) : m.log2 ≤ 52 := by
  rcases Nat.eq_zero_or_pos m with rfl | hpos
  · simp
  · have hlog := (Nat.log2_lt hpos.ne').mpr h
    omega

theorem log2_eq_iff {m : ℕ} (h : m < 2 ^ 53) : m.log2 + 1 = 53 ↔ 2 ^ 52 ≤ m := by
  have hle := log2_le_of_lt h
  constructor
  · intro hlog
    by_contra hlt
    rcases Nat.eq_zero_or_pos m with rfl | hpos
    · simp at hlog
    · have hless := (Nat.log2_lt hpos.ne').mpr (not_le.mp hlt)
      omega
  · intro hge
    have hless := (Nat.le_log2 (by omega)).mpr hge
    omega

/-- The word for a mantissa that has 53 bits, or fewer with the least exponent. -/
theorem toNat_pack_finite (s : Sign) {m : ℕ} {e : ℤ} (hpos : 0 < m) (hlt : m < 2 ^ 53)
    (hle : -1074 ≤ e) (hnormal : -1074 < e → 2 ^ 52 ≤ m) :
    (UnpackedFloat.pack .binary64 (.finite s m e hpos)).toNat =
      s.toBitVec.toNat * 2 ^ 63 + min ((e + 1074).toNat * 2 ^ 52 + m) infinityBits := by
  have hbias : (e + Format.binary64.exponentBias + Format.binary64.mantissaBitsWithoutImplicit) =
      e + 1075 := by
    show e + 1023 + 52 = _
    ring
  have hlog : m.log2 + 1 = Format.binary64.mantissaBits ↔ 2 ^ 52 ≤ m := log2_eq_iff hlt
  simp only [UnpackedFloat.pack, hbias, hlog, packedInfinity]
  rw [infinityBits]
  split
  · next h =>
    rw [Dyadic.toNat_packComponents]
    show _ + 2047 * 2 ^ 52 + 0 = _
    have hmax : 2 ^ 11 ≤ (e + 1075).toNat + 1 := h
    omega
  · next h =>
    have hmax : ¬ 2 ^ 11 ≤ (e + 1075).toNat + 1 := h
    split
    · rw [Dyadic.toNat_packComponents, BitVec.toNat_ofNat, BitVec.toNat_ofNat]
      omega
    · rw [Dyadic.toNat_packComponents, BitVec.toNat_ofNat, BitVec.toNat_ofNat]
      show _ + 0 * 2 ^ 52 + m % 2 ^ 52 = _
      omega

/-- Shifting a rounded number of units does not change which double it counts. -/
theorem shift_units {q : ℕ} {e : ℤ} (hq : q ≤ 2 ^ 53) (hle : -1074 ≤ e)
    (hnormal : -1074 < e → 2 ^ 52 ≤ q) :
    ∃ m t, (shiftToTargetExponent .binary64 q e .exact).1.mantissa = m ∧
      (shiftToTargetExponent .binary64 q e .exact).2 = t ∧ m < 2 ^ 53 ∧ -1074 ≤ t ∧
      (-1074 < t → 2 ^ 52 ≤ m) ∧
      (t + 1074).toNat * 2 ^ 52 + m = (e + 1074).toNat * 2 ^ 52 + q := by
  simp only [shiftToTargetExponent, shiftToExponent, targetExponent_eq]
  rcases eq_or_lt_of_le hq with rfl | hlt
  · -- the next power of two has its own exponent
    have hshift : (max (((2 ^ 53 : ℕ).log2 : ℤ) + 1 + e - 53) (-1074) - e).toNat = 1 := by
      rw [Nat.log2_two_pow]
      omega
    rw [hshift]
    refine ⟨2 ^ 52, e + 1, rfl, rfl, by norm_num, by omega, fun _ => le_rfl, ?_⟩
    omega
  · have hlog := log2_le_of_lt hlt
    have hshift : (max ((q.log2 : ℤ) + 1 + e - 53) (-1074) - e).toNat = 0 := by
      omega
    rw [hshift]
    exact ⟨q, e, rfl, add_zero e, hlt, hle, hnormal, rfl⟩

@[simp] theorem mantissa_ofMantissaAndAccuracy (m : ℕ) (acc : Accuracy) :
    (ExtendedMantissa.ofMantissaAndAccuracy m acc).mantissa = m := by
  cases acc with
  | exact => rfl
  | inexact o => cases o <;> rfl

/-- A number between a mantissa and the next one is counted in units of the exponent that the
mantissa is shifted to. -/
theorem unitOf_of_mantissa {m : ℕ} {e t : ℤ} {r : ℚ} (hle : (m : ℚ) ≤ r) (hlt : r < m + 1)
    (ht : max ((m.log2 : ℤ) + 1 + e - 53) (-1074) = t) (he : e ≤ t) : UnitOf (r * 2 ^ e) t := by
  have hlow : (0 : ℚ) ≤ r := le_trans (Nat.cast_nonneg m) hle
  refine ⟨mul_nonneg hlow (two_zpow_pos e).le, by omega, ?_, fun hleast => ?_⟩
  · -- the mantissa has as many bits as its logarithm tells
    have hnext : r < 2 ^ ((m.log2 : ℤ) + 1) := by
      refine lt_of_lt_of_le hlt ?_
      have hcast : (m.log2 : ℤ) + 1 = (m.log2 + 1 : ℕ) := rfl
      rw [hcast, zpow_natCast]
      exact_mod_cast Nat.lt_log2_self
    calc r * 2 ^ e < 2 ^ ((m.log2 : ℤ) + 1) * 2 ^ e :=
          mul_lt_mul_of_pos_right hnext (two_zpow_pos e)
      _ = 2 ^ ((m.log2 : ℤ) + 1 + e) := (zpow_add₀ (by norm_num) _ _).symm
      _ ≤ 2 ^ (53 + t) := zpow_le_zpow_right₀ (by norm_num) (by omega)
  · have hpos : 0 < m := by
      by_contra hzero
      obtain rfl : m = 0 := by omega
      simp at ht
      omega
    have hbits : 52 + t = (m.log2 : ℤ) + e := by omega
    rw [hbits, zpow_add₀ (by norm_num)]
    exact mul_le_mul_of_nonneg_right ((zpow_log2_le hpos).trans hle) (two_zpow_pos e).le

/-- Rounding gives the double nearest to the number that the bits stand for, where the exponent is
not too large to begin with. -/
theorem rounded_roundWithAccuracy (s : Sign) {m : ℕ} {e : ℤ} {acc : Accuracy} {r : ℚ}
    (h : Represents (.ofMantissaAndAccuracy m acc) r)
    (he : e ≤ max ((m.log2 : ℤ) + 1 + e - 53) (-1074)) :
    ∃ b, Rounded (r * 2 ^ e) b ∧
      (UnpackedFloat.pack .binary64 (roundWithAccuracy .binary64 s m e acc)).toNat =
        s.toBitVec.toNat * 2 ^ 63 + b := by
  obtain ⟨t, ht⟩ : ∃ t, max ((m.log2 : ℤ) + 1 + e - 53) (-1074) = t := ⟨_, rfl⟩
  rw [ht] at he
  have hunit : UnitOf (r * 2 ^ e) t :=
    unitOf_of_mantissa (by simpa using h.le) (by simpa using h.lt) ht he
  have hexponent : e + ((t - e).toNat : ℤ) = t := by omega
  have hquotient : r * 2 ^ e / 2 ^ t = r / 2 ^ (t - e).toNat := by
    rw [← hexponent, zpow_add₀ (by norm_num), zpow_natCast, hexponent, mul_comm r,
      mul_div_mul_left _ _ (two_zpow_pos e).ne']
  have hround := (h.shiftRight (t - e).toNat).roundsTo
  rw [← hquotient] at hround
  have hunits : (ExtendedMantissa.ofMantissaAndAccuracy m acc >>>
      (t - e).toNat).roundedMantissa ≤ 2 ^ 53 :=
    hround.mono (RoundsTo.natCast _) (by exact_mod_cast hunit.div_lt.le)
  have hnormal (hleast : -1074 < t) : 2 ^ 52 ≤ (ExtendedMantissa.ofMantissaAndAccuracy m acc >>>
      (t - e).toNat).roundedMantissa :=
    (RoundsTo.natCast _).mono hround (by exact_mod_cast hunit.le_div hleast)
  have hfirst : shiftToTargetExponent .binary64 m e acc =
      (ExtendedMantissa.ofMantissaAndAccuracy m acc >>> (t - e).toNat, t) := by
    simp only [shiftToTargetExponent, shiftToExponent, targetExponent_eq, ht, hexponent]
  refine ⟨_, ⟨t, _, hunit, hround, rfl⟩, ?_⟩
  -- rounding up may have given one bit too many, which a second shift takes off
  obtain ⟨m', t', hm', ht', hlt', hle', hnormal', hcount⟩ :=
    shift_units hunits hunit.le hnormal
  simp only [roundWithAccuracy, hfirst, hm', ht']
  rw [← hcount]
  split
  · next hzero =>
    have hleast : t' = -1074 := by omega
    rw [hzero, hleast]
    cases s <;> rfl
  · exact toNat_pack_finite s _ hlt' hle' hnormal'

/-- The exponent of a mantissa with all its bits is not too large, and neither is the least one. -/
theorem le_target_of_normal {m : ℕ} {e : ℤ} (h : -1074 < e → 2 ^ 52 ≤ m) :
    e ≤ max ((m.log2 : ℤ) + 1 + e - 53) (-1074) := by
  by_cases hleast : -1074 < e
  · have hlarge := h hleast
    have hlog := (Nat.le_log2 (by omega)).mpr hlarge
    omega
  · omega

/-! ### Products and quotients -/

theorem Rounded.le_infinityBits {r : ℚ} {b : ℕ} (h : Rounded r b) : b ≤ infinityBits := by
  obtain ⟨e, q, -, -, rfl⟩ := h
  exact min_le_right _ _

theorem rounded_zero : Rounded 0 0 :=
  ⟨-1074, 0, ⟨le_rfl, le_rfl, by positivity, by simp⟩, by simpa using RoundsTo.natCast 0, rfl⟩

/-- A finite double, unpacked. -/
theorem unpack_of_ofFloat? {x : Float} {d : Dyadic} (h : Dyadic.ofFloat? x = some d) :
    x.toModel.unpack = if hm : d.mantissa = 0 then .zero (unpackedSign x)
      else .finite (unpackedSign x) d.mantissa d.exponent (Nat.pos_of_ne_zero hm) := by
  have hd := (Dyadic.ofFloat?_eq_some_iff.mp h).1
  have hbits := (magnitudeBits_of_ofFloat? h).1
  have hlt := hd.rank_lt
  have hreads := reads_of_le (hbits.trans_le hlt.le)
  rw [hbits] at hreads
  generalize hn : d.rank = n at hreads
  generalize x.toModel.unpack = u at hreads
  cases hreads with
  | zero =>
    have hzero : d.mantissa = 0 := by
      rw [Dyadic.rank] at hn
      omega
    rw [dif_pos hzero]
  | @finite d' hd' hpos =>
    obtain ⟨hmantissa, hexponent⟩ := hd.eq_of_rank hd' hn
    simp only [hmantissa, hexponent]
    rw [dif_neg hpos.ne']
  | infinity => omega

theorem unpack_infinity {x : Float} (h : magnitudeBits x = infinityBits) :
    x.toModel.unpack = .infinity (unpackedSign x) := by
  have hreads := reads_of_le h.le
  rw [h] at hreads
  generalize hn : infinityBits = n at hreads
  generalize x.toModel.unpack = u at hreads
  cases hreads with
  | zero => exact absurd hn (by decide)
  | @finite d hd hpos => exact absurd hn hd.rank_lt.ne'
  | infinity => rfl

/-- A double that is packed with its sign. -/
theorem of_toNat_pack {x : Float} {s : Sign} {u : UnpackedFloat} {b : ℕ}
    (hx : x.toBits.toBitVec = UnpackedFloat.pack .binary64 u)
    (h : (UnpackedFloat.pack .binary64 u).toNat = s.toBitVec.toNat * 2 ^ 63 + b)
    (hb : b ≤ infinityBits) : magnitudeBits x = b ∧ unpackedSign x = s := by
  have hbits : x.toBits.toNat = s.toBitVec.toNat * 2 ^ 63 + b := by
    rw [← h, ← hx]
    rfl
  rw [infinityBits] at hb
  rw [magnitudeBits, unpackedSign, isNegative, hbits]
  cases s <;> simp [Sign.toBitVec] <;> omega

theorem toNat_pack_zero (s : Sign) :
    (UnpackedFloat.pack .binary64 (.zero s)).toNat = s.toBitVec.toNat * 2 ^ 63 + 0 := by
  cases s <;> rfl

theorem toNat_pack_infinity (s : Sign) :
    (UnpackedFloat.pack .binary64 (.infinity s)).toNat =
      s.toBitVec.toNat * 2 ^ 63 + infinityBits := by
  cases s <;> rfl

/-- A product is the double nearest to the product of the exact values. -/
theorem rounded_mul {x y : Float} {d d' : Dyadic} (hx : Dyadic.ofFloat? x = some d)
    (hy : Dyadic.ofFloat? y = some d') :
    Rounded (d.magnitude * d'.magnitude) (magnitudeBits (x * y)) ∧
      unpackedSign (x * y) = unpackedSign x * unpackedSign y := by
  have hpack : (x * y).toBits.toBitVec = UnpackedFloat.pack .binary64
      (UnpackedFloat.mul .binary64 x.toModel.unpack y.toModel.unpack) := rfl
  obtain ⟨-, hnormal, hle, -⟩ := (Dyadic.ofFloat?_eq_some_iff.mp hx).1
  obtain ⟨-, hnormal', hle', -⟩ := (Dyadic.ofFloat?_eq_some_iff.mp hy).1
  rw [unpack_of_ofFloat? hx, unpack_of_ofFloat? hy] at hpack
  have hzero (hvalue : d.magnitude * d'.magnitude = 0) (hmul : (x * y).toBits.toBitVec =
      UnpackedFloat.pack .binary64 (.zero (unpackedSign x * unpackedSign y))) :
      Rounded (d.magnitude * d'.magnitude) (magnitudeBits (x * y)) ∧
        unpackedSign (x * y) = unpackedSign x * unpackedSign y := by
    obtain ⟨hbits, hsign⟩ := of_toNat_pack hmul (toNat_pack_zero _) (Nat.zero_le _)
    rw [hbits, hvalue]
    exact ⟨rounded_zero, hsign⟩
  by_cases hm : d.mantissa = 0
  · refine hzero (by rw [d.magnitude_eq_zero_iff.mpr hm, zero_mul]) ?_
    rw [hpack, dif_pos hm]
    split <;> rfl
  · by_cases hm' : d'.mantissa = 0
    · refine hzero (by rw [d'.magnitude_eq_zero_iff.mpr hm', mul_zero]) ?_
      rw [hpack, dif_neg hm, dif_pos hm']
      rfl
    · rw [dif_neg hm, dif_neg hm'] at hpack
      have hpos : 0 < d.mantissa * d'.mantissa := by positivity
      -- where a unit is not the least, its mantissa has 53 bits, and so has the product
      have hlarge (hleast : -1074 < d.exponent + d'.exponent) :
          2 ^ 52 ≤ d.mantissa * d'.mantissa := by
        by_cases he : -1074 < d.exponent
        · exact (hnormal he).trans (Nat.le_mul_of_pos_right _ (Nat.pos_of_ne_zero hm'))
        · exact (hnormal' (by omega)).trans (Nat.le_mul_of_pos_left _ (Nat.pos_of_ne_zero hm))
      obtain ⟨b, hb, hbits⟩ := rounded_roundWithAccuracy (unpackedSign x * unpackedSign y)
        (represents_exact (d.mantissa * d'.mantissa)) (le_target_of_normal hlarge)
      obtain ⟨hmagnitude, hsign⟩ := of_toNat_pack hpack hbits hb.le_infinityBits
      refine ⟨?_, hsign⟩
      rw [hmagnitude, Dyadic.magnitude, Dyadic.magnitude, mul_mul_mul_comm,
        ← zpow_add₀ (by norm_num)]
      rwa [Nat.cast_mul] at hb

/-- A quotient is the double nearest to the quotient of the exact values. -/
theorem rounded_div {x y : Float} {d d' : Dyadic} (hx : Dyadic.ofFloat? x = some d)
    (hy : Dyadic.ofFloat? y = some d') (hm' : d'.mantissa ≠ 0) :
    Rounded (d.magnitude / d'.magnitude) (magnitudeBits (x / y)) ∧
      unpackedSign (x / y) = unpackedSign x / unpackedSign y := by
  have hpack : (x / y).toBits.toBitVec = UnpackedFloat.pack .binary64
      (UnpackedFloat.div .binary64 x.toModel.unpack y.toModel.unpack) := rfl
  rw [unpack_of_ofFloat? hx, unpack_of_ofFloat? hy, dif_neg hm'] at hpack
  by_cases hm : d.mantissa = 0
  · rw [dif_pos hm] at hpack
    obtain ⟨hbits, hsign⟩ := of_toNat_pack hpack (toNat_pack_zero _) (Nat.zero_le _)
    rw [hbits, d.magnitude_eq_zero_iff.mpr hm, zero_div]
    exact ⟨rounded_zero, hsign⟩
  · rw [dif_neg hm] at hpack
    obtain ⟨t, ht⟩ : ∃ t, min (d.exponent - d'.exponent) (max ((d.mantissa.log2 : ℤ) + 1 +
      d.exponent - (d'.mantissa.log2 + 1 + d'.exponent) - 53) (-1074)) = t := ⟨_, rfl⟩
    obtain ⟨n, hn⟩ : ∃ n, (d.exponent - d'.exponent - t).toNat = n := ⟨_, rfl⟩
    have hcore : divCore .binary64 d.mantissa d.exponent d'.mantissa d'.exponent =
        (d.mantissa * 2 ^ n / d'.mantissa, t,
          accuracyOfFraction (d.mantissa * 2 ^ n % d'.mantissa) d'.mantissa) := by
      rw [← Nat.shiftLeft_eq, ← hn, ← ht]
      rfl
    -- the quotient has 53 bits unless its unit is the least
    have hlarge (hleast : -1074 < t) : 2 ^ 52 ≤ d.mantissa * 2 ^ n / d'.mantissa := by
      rw [Nat.le_div_iff_mul_le (Nat.pos_of_ne_zero hm')]
      calc 2 ^ 52 * d'.mantissa ≤ 2 ^ 52 * 2 ^ (d'.mantissa.log2 + 1) :=
            Nat.mul_le_mul_left _ Nat.lt_log2_self.le
        _ = 2 ^ (52 + (d'.mantissa.log2 + 1)) := (pow_add _ _ _).symm
        _ ≤ 2 ^ (d.mantissa.log2 + n) := Nat.pow_le_pow_right (by decide) (by omega)
        _ = 2 ^ d.mantissa.log2 * 2 ^ n := pow_add _ _ _
        _ ≤ d.mantissa * 2 ^ n := Nat.mul_le_mul_right _ (Nat.log2_self_le hm)
    obtain ⟨b, hb, hbits⟩ := rounded_roundWithAccuracy (unpackedSign x / unpackedSign y)
      (represents_fraction (d.mantissa * 2 ^ n) (Nat.pos_of_ne_zero hm'))
      (le_target_of_normal hlarge)
    simp only [UnpackedFloat.div, hcore] at hpack
    obtain ⟨hmagnitude, hsign⟩ := of_toNat_pack hpack hbits hb.le_infinityBits
    refine ⟨?_, hsign⟩
    have hpower : (2 : ℚ) ^ n * 2 ^ t = 2 ^ d.exponent / 2 ^ d'.exponent := by
      rw [← zpow_natCast, ← zpow_add₀ (by norm_num), ← zpow_sub₀ (by norm_num)]
      congr 1
      omega
    rw [hmagnitude, Dyadic.magnitude, Dyadic.magnitude, mul_div_mul_comm, ← hpower]
    rwa [Nat.cast_mul, Nat.cast_pow, Nat.cast_ofNat, mul_div_right_comm, mul_assoc] at hb

theorem infinity_mul {x y : Float} {d' : Dyadic} (hx : magnitudeBits x = infinityBits)
    (hy : Dyadic.ofFloat? y = some d') (hm' : d'.mantissa ≠ 0) :
    magnitudeBits (x * y) = infinityBits ∧
      unpackedSign (x * y) = unpackedSign x * unpackedSign y := by
  have hpack : (x * y).toBits.toBitVec = UnpackedFloat.pack .binary64
      (UnpackedFloat.mul .binary64 x.toModel.unpack y.toModel.unpack) := rfl
  rw [unpack_infinity hx, unpack_of_ofFloat? hy, dif_neg hm'] at hpack
  exact of_toNat_pack hpack (toNat_pack_infinity _) le_rfl

theorem infinity_div {x y : Float} {d' : Dyadic} (hx : magnitudeBits x = infinityBits)
    (hy : Dyadic.ofFloat? y = some d') (hm' : d'.mantissa ≠ 0) :
    magnitudeBits (x / y) = infinityBits ∧
      unpackedSign (x / y) = unpackedSign x / unpackedSign y := by
  have hpack : (x / y).toBits.toBitVec = UnpackedFloat.pack .binary64
      (UnpackedFloat.div .binary64 x.toModel.unpack y.toModel.unpack) := rfl
  rw [unpack_infinity hx, unpack_of_ofFloat? hy, dif_neg hm'] at hpack
  exact of_toNat_pack hpack (toNat_pack_infinity _) le_rfl

end Reckon.Number
