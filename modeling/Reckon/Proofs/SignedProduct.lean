/-
The sign of a product.

Changing the sign of a number changes its sign bit and nothing else, and rounding does not look at
the sign. So the sign of a product can be changed before or after multiplying.

* `pack_unpack` : a word that is read and written again.
* `unpack_pack_neg` : a number with its sign changed, written and read again.
* `neg_mul_eq` : the product with the sign of a factor changed.
-/
import Mathlib
import Reckon.Number.Power

namespace Reckon.Number

open Float.Model Float.Model.UnpackedFloat

/-! ### Signs, exponents and mantissas of words -/

section Words

variable {S : Format}

theorem ofBitVec_toBitVec (s : Sign) : Sign.ofBitVec s.toBitVec = s := by
  cases s <;> rfl

theorem toBitVec_ofBitVec (b : BitVec 1) : (Sign.ofBitVec b).toBitVec = b := by
  rcases BitVec.eq_zero_or_eq_one b with rfl | rfl <;> rfl

theorem unpackSign_packComponents (s : Sign) (e : BitVec S.exponentBits)
    (m : BitVec S.mantissaBitsWithoutImplicit) :
    unpackSign (packComponents S s e m) = s.toBitVec := by
  ext i hi
  obtain rfl : i = 0 := by omega
  simp only [unpackSign, packComponents, BitVec.extractLsb]
  grind

/-- Every word is made of a sign, an exponent and a mantissa. -/
theorem exists_packComponents (b : BitVec S.numBits) : ∃ s e m, b = packComponents S s e m := by
  refine ⟨.ofBitVec (unpackSign b), unpackExponent b, unpackMantissa b, ?_⟩
  rw [packComponents, toBitVec_ofBitVec]
  simp only [unpackSign, unpackExponent, unpackMantissa, BitVec.extractLsb]
  ext i hi
  grind

/-- Changing the sign of a number changes the sign of its word. -/
theorem neg_unpack (s : Sign) (e : BitVec S.exponentBits)
    (m : BitVec S.mantissaBitsWithoutImplicit) :
    (UnpackedFloat.unpack S (packComponents S s e m)).neg =
      UnpackedFloat.unpack S (packComponents S (-s) e m) := by
  simp only [UnpackedFloat.unpack, unpackMantissa_packComponents, unpackExponent_packComponents,
    unpackSign_packComponents, ofBitVec_toBitVec]
  split
  · split <;> rfl
  · split
    · split <;> rfl
    · rfl

end Words

/-! ### Writing what has been read -/

/-- A word of 64 bits that is no NaN is written as it was read. -/
theorem pack_unpack (s : Sign) (e : BitVec 11) (m : BitVec 52) (h : e = -1#11 → m = 0#52) :
    UnpackedFloat.pack .binary64 (UnpackedFloat.unpack .binary64 (packComponents .binary64 s e m)) =
      packComponents .binary64 s e m := by
  simp only [UnpackedFloat.unpack, unpackMantissa_packComponents, unpackExponent_packComponents,
    unpackSign_packComponents, ofBitVec_toBitVec]
  by_cases he : e = -1#11
  · rw [if_pos he, if_pos (h he), he, h he]
    rfl
  · have hmax : e.toNat ≠ 2047 := by
      intro ht
      exact he (BitVec.eq_of_toNat_eq ht)
    have hlt : e.toNat < 2048 := e.isLt
    rw [if_neg he]
    by_cases hzero : e = 0#11
    · rw [if_pos hzero]
      by_cases hm : m = 0#52
      · rw [dif_pos hm, hzero, hm]
        rfl
      · rw [dif_neg hm]
        have hpos : m.toNat ≠ 0 := fun h0 => hm (BitVec.eq_of_toNat_eq h0)
        have hlog : m.toNat.log2 < 52 := (Nat.log2_lt hpos).mpr m.isLt
        subst hzero
        simp only [UnpackedFloat.pack]
        rw [if_neg (by decide), if_neg, BitVec.ofNat_toNat, BitVec.setWidth_eq]
        show ¬ m.toNat.log2 + 1 = 53
        omega
    · rw [if_neg hzero]
      have hm : (1#1 ++ m).toNat = 2 ^ 52 + m.toNat := by
        rw [BitVec.toNat_append, ← Nat.shiftLeft_add_eq_or_of_lt m.isLt]
        rfl
      have hlog : (1#1 ++ m).toNat.log2 = 52 := by
        rw [hm, Nat.log2_eq_iff (by omega)]
        have := m.isLt
        omega
      have hbiased : ((e.toNat : Int) - (Format.binary64.exponentBias + (52 : Nat)) +
          Format.binary64.exponentBias + (52 : Nat)).toNat = e.toNat := by
        omega
      have hmantissa : BitVec.ofNat 52 (2 ^ 52 + m.toNat) = m := by
        apply BitVec.eq_of_toNat_eq
        rw [BitVec.toNat_ofNat, Nat.add_mod_left, Nat.mod_eq_of_lt m.isLt]
      simp only [UnpackedFloat.pack]
      rw [hbiased, if_neg, if_pos, BitVec.ofNat_toNat, BitVec.setWidth_eq, hm]
      · exact congrArg _ hmantissa
      · exact congrArg (· + 1) hlog
      · show ¬ 2048 ≤ e.toNat + 1
        omega

theorem unpack_notANumber (s : Sign) {e : BitVec 11} {m : BitVec 52} (he : e = -1#11)
    (hm : m ≠ 0#52) :
    UnpackedFloat.unpack .binary64 (packComponents .binary64 s e m) = .notANumber := by
  simp only [UnpackedFloat.unpack, unpackMantissa_packComponents, unpackExponent_packComponents]
  rw [if_pos he, if_neg hm]

theorem unpack_pack_notANumber :
    UnpackedFloat.unpack .binary64 (UnpackedFloat.pack .binary64 .notANumber) = .notANumber :=
  unpack_notANumber .positive rfl (by decide)

/-- A number that has been read, with its sign changed, is written and read again. -/
theorem unpack_pack_neg (b : BitVec 64) :
    UnpackedFloat.unpack .binary64
        (UnpackedFloat.pack .binary64 (UnpackedFloat.unpack .binary64 b).neg) =
      (UnpackedFloat.unpack .binary64 b).neg := by
  obtain ⟨s, e, m, rfl⟩ := exists_packComponents (S := .binary64) b
  rw [neg_unpack]
  by_cases h : e = -1#11 → m = 0#52
  · rw [pack_unpack _ _ _ h]
  · -- no number, of whatever sign
    rw [Classical.not_imp] at h
    rw [unpack_notANumber (-s) h.1 h.2, unpack_pack_notANumber]

/-- Writing a number with its sign changed changes the sign of the word. -/
theorem pack_neg (x : UnpackedFloat) (hx : x ≠ .notANumber) :
    ∃ s e m, UnpackedFloat.pack .binary64 x = packComponents .binary64 s e m ∧
      UnpackedFloat.pack .binary64 x.neg = packComponents .binary64 (-s) e m ∧
      (e = -1#11 → m = 0#52) := by
  cases x with
  | notANumber => exact absurd rfl hx
  | infinity s => exact ⟨s, _, _, rfl, rfl, fun _ => rfl⟩
  | zero s => exact ⟨s, _, _, rfl, rfl, fun _ => rfl⟩
  | finite s m e hm =>
    simp only [UnpackedFloat.pack, UnpackedFloat.neg]
    split
    · exact ⟨s, _, _, rfl, rfl, fun _ => rfl⟩
    · next hexponent =>
      split
      · refine ⟨s, _, _, rfl, rfl, fun he => ?_⟩
        have hbits := congrArg BitVec.toNat he
        rw [BitVec.toNat_ofNat] at hbits
        change _ % 2048 = 2047 at hbits
        change ¬ 2048 ≤ _ + 1 at hexponent
        omega
      · exact ⟨s, _, _, rfl, rfl, fun he => absurd he (by decide)⟩

/-- A number that has been written and read is written with its sign changed as it would have been
at once. -/
theorem pack_neg_unpack (x : UnpackedFloat) :
    UnpackedFloat.pack .binary64
        (UnpackedFloat.unpack .binary64 (UnpackedFloat.pack .binary64 x)).neg =
      UnpackedFloat.pack .binary64 x.neg := by
  by_cases hx : x = .notANumber
  · rw [hx, unpack_pack_notANumber]
  · obtain ⟨s, e, m, hpack, hneg, hvalid⟩ := pack_neg x hx
    rw [hpack, neg_unpack, hneg, pack_unpack _ _ _ hvalid]

/-! ### Products -/

theorem neg_mul_sign (s t : Sign) : -s * t = -(s * t) := by
  cases s <;> cases t <;> rfl

/-- Rounding does not look at the sign. -/
theorem neg_round (s : Sign) (m : Nat) (e : Int) (a : Accuracy) :
    roundWithAccuracy .binary64 (-s) m e a = (roundWithAccuracy .binary64 s m e a).neg := by
  simp only [roundWithAccuracy]
  split <;> rfl

theorem neg_mul_unpacked (x y : UnpackedFloat) :
    x.neg.mul .binary64 y = (x.mul .binary64 y).neg := by
  cases x <;> cases y <;>
    simp only [UnpackedFloat.neg, UnpackedFloat.mul, neg_mul_sign, neg_round]

/-- The product with the sign of its left factor changed is the product with its sign changed. -/
theorem neg_mul_eq (x y : Float) : -x * y = -(x * y) := by
  have hleft : (-x.toModel).unpack = x.toModel.unpack.neg := unpack_pack_neg _
  have hright (a : UnpackedFloat) : Float.Model.pack (Float.Model.pack a).unpack.neg =
      Float.Model.pack a.neg := by
    show Float.Model.mk _ _ = Float.Model.mk _ _
    congr 1
    exact congrArg UInt64.ofBitVec (pack_neg_unpack a)
  apply congrArg Float.ofModel
  show Float.Model.pack ((-x.toModel).unpack.mul .binary64 y.toModel.unpack) =
    Float.Model.pack (Float.Model.pack (x.toModel.unpack.mul .binary64 y.toModel.unpack)).unpack.neg
  rw [hleft, neg_mul_unpacked, hright]

end Reckon.Number
