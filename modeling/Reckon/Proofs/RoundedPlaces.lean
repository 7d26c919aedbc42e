/-
Doubles rounded to decimal places.

A double is rounded to decimal places by scaling it up, rounding it to a whole number and scaling it
down again, each of which is rounded to a double. None of these steps reverses an order, nor does
any of them change a sign. So what is computed for two neighbouring doubles decides about all others.

* `eq_infinity_or_finite` : doubles other than NaN.
* `rounded_roundAway` : rounding to a whole number.
* `roundTo_mono`, `isNegative_roundTo` : rounding to decimal places.
-/
import Reckon.Number.Round
import Reckon.Proofs.DoubleProduct

namespace Reckon.Number

open Float.Model Float.Model.UnpackedFloat

/-! ### Doubles other than NaN -/

theorem magnitudeBits_le_of_ofFloat? {x : Float} {d : Dyadic} (h : Dyadic.ofFloat? x = some d) :
    magnitudeBits x ≤ infinityBits := by
  rw [(magnitudeBits_of_ofFloat? h).1]
  exact (Dyadic.ofFloat?_eq_some_iff.mp h).1.rank_lt.le

theorem eq_infinity_or_finite {x : Float} (h : magnitudeBits x ≤ infinityBits) :
    magnitudeBits x = infinityBits ∨ ∃ d, Dyadic.ofFloat? x = some d := by
  rcases eq_or_lt_of_le h with heq | hlt
  · exact Or.inl heq
  · right
    have hfield : x.toBits.toNat / Nat.pow 2 52 % Nat.pow 2 11 ≠ Nat.pow 2 11 - 1 := by
      have h52 : Nat.pow 2 52 = 2 ^ 52 := rfl
      have h11 : Nat.pow 2 11 = 2 ^ 11 := rfl
      rw [magnitudeBits, infinityBits] at hlt
      rw [h52, h11]
      omega
    rw [Dyadic.ofFloat?, if_neg hfield]
    split <;> exact ⟨_, rfl⟩

/-- What has been read is written with the same bits. -/
theorem toNat_pack_of_reads {s : Sign} {u : UnpackedFloat} {n : ℕ} (h : Reads s u n) :
    (UnpackedFloat.pack .binary64 u).toNat = s.toBitVec.toNat * 2 ^ 63 + n := by
  cases h with
  | zero => exact toNat_pack_zero s
  | @finite d hd hpos =>
    rw [toNat_pack_finite s hpos hd.mantissa_lt hd.le_exponent hd.le_mantissa, ← Dyadic.rank,
      min_eq_left hd.rank_lt.le]
  | infinity => exact toNat_pack_infinity s

/-- The magnitude of a double. -/
theorem magnitudeBits_abs {x : Float} (h : magnitudeBits x ≤ infinityBits) :
    magnitudeBits x.abs = magnitudeBits x ∧ unpackedSign x.abs = .positive := by
  have hreads := reads_of_le h
  have habs : Reads .positive x.toModel.unpack.abs (magnitudeBits x) := by
    generalize magnitudeBits x = n at hreads
    generalize x.toModel.unpack = u at hreads
    cases hreads with
    | zero => exact .zero
    | finite hd hpos => exact .finite hd hpos
    | infinity => exact .infinity
  exact of_toNat_pack rfl (toNat_pack_of_reads habs) h

/-- A double given by its bits. -/
theorem magnitudeBits_ofBits (s : Sign) {n : ℕ} (h : n ≤ infinityBits) :
    magnitudeBits (Float.ofBits (UInt64.ofNat (s.toBitVec.toNat * 2 ^ 63 + n))) = n ∧
      unpackedSign (Float.ofBits (UInt64.ofNat (s.toBitVec.toNat * 2 ^ 63 + n))) = s := by
  have hs : s.toBitVec.toNat ≤ 1 := by cases s <;> decide
  have hlt : s.toBitVec.toNat * 2 ^ 63 + n < 2 ^ 64 := by
    rw [infinityBits] at h
    omega
  generalize hw : UInt64.ofNat (s.toBitVec.toNat * 2 ^ 63 + n) = w
  have hnat : w.toBitVec.toNat = s.toBitVec.toNat * 2 ^ 63 + n := by
    rw [← hw]
    exact UInt64.toNat_ofNat_of_lt' hlt
  obtain ⟨s', e, m, hword⟩ := exists_packComponents (S := .binary64) w.toBitVec
  have hm : m.toNat < 2 ^ 52 := m.isLt
  have he : e.toNat < 2 ^ 11 := e.isLt
  have hbits : s'.toBitVec.toNat * 2 ^ 63 + e.toNat * 2 ^ 52 + m.toNat =
      s.toBitVec.toNat * 2 ^ 63 + n := by
    rw [← Dyadic.toNat_packComponents, ← hword, hnat]
  have hvalid : e = -1#11 → m = 0#52 := by
    rintro rfl
    have hlast : (-1#11).toNat = 2047 := rfl
    have hs' : s'.toBitVec.toNat ≤ 1 := by cases s' <;> decide
    rw [hlast] at hbits
    rw [infinityBits] at h
    exact BitVec.eq_of_toNat_eq (by show m.toNat = 0; omega)
  have hpack : (Float.ofBits w).toBits.toBitVec = UnpackedFloat.pack .binary64
      (UnpackedFloat.unpack .binary64 w.toBitVec) := rfl
  refine of_toNat_pack hpack ?_ h
  rw [hword, pack_unpack s' e m hvalid, ← hword, hnat]

/-- The double nearest to a quotient. -/
theorem magnitudeBits_nearestFloat (negative : Bool) (num den : ℕ) :
    magnitudeBits (nearestFloat negative num den) = nearestBits num den ∧
      unpackedSign (nearestFloat negative num den) =
        if negative then .negative else .positive := by
  have hle : nearestBits num den ≤ infinityBits := by
    rw [nearestBits]
    split
    · exact Nat.zero_le _
    · exact min_le_right _ _
  have hsign : (nearestBits num den + if negative then Nat.pow 2 63 else 0) =
      (if negative then Sign.negative else .positive).toBitVec.toNat * 2 ^ 63 +
        nearestBits num den := by
    cases negative <;> simp [Sign.toBitVec, Nat.add_comm]
  rw [nearestFloat, hsign]
  exact magnitudeBits_ofBits _ hle

/-! ### Rounding to a whole number -/

theorem sign_mul_positive (s : Sign) : s * .positive = s := by
  cases s <;> rfl

theorem sign_div_positive (s : Sign) : s / .positive = s := by
  cases s <;> rfl

theorem unpackedSign_eq {x : Float} {d : Dyadic} (h : Dyadic.ofFloat? x = some d) :
    unpackedSign x = if d.negative then .negative else .positive := by
  rw [unpackedSign, (magnitudeBits_of_ofFloat? h).2]

/-- Half a unit is added to the magnitude before the fraction is cut off. -/
theorem rounded_roundAway {x : Float} {d : Dyadic} (h : Dyadic.ofFloat? x = some d) :
    Rounded (⌊d.magnitude + 1 / 2⌋₊ : ℕ) (magnitudeBits (roundAway x)) ∧
      unpackedSign (roundAway x) = unpackedSign x := by
  have hd := (Dyadic.ofFloat?_eq_some_iff.mp h).1
  simp only [roundAway, h]
  split
  · -- a whole number is kept, so nothing is rounded
    next he =>
    have hwhole : d.magnitude = (d.mantissa * Nat.pow 2 d.exponent.toNat : ℕ) := by
      rw [Dyadic.magnitude, Nat.cast_mul, natCast_pow_toNat he]
    have hfloor : ⌊d.magnitude + 1 / 2⌋₊ = d.mantissa * Nat.pow 2 d.exponent.toNat := by
      rw [hwhole, add_comm, Nat.floor_add_natCast (by norm_num),
        Nat.floor_eq_zero.mpr (by norm_num), Nat.zero_add]
    rw [hfloor, ← hwhole, (magnitudeBits_of_ofFloat? h).1]
    exact ⟨hd.rounded, rfl⟩
  · next he =>
    have hunit := natCast_pow_toNat (by omega : 0 ≤ -d.exponent)
    obtain ⟨unit, hu⟩ : ∃ unit, Nat.pow 2 (-d.exponent).toNat = unit := ⟨_, rfl⟩
    rw [hu] at hunit ⊢
    have hpos : (0 : ℚ) < unit := by
      rw [hunit]
      exact two_zpow_pos _
    have hvalue : d.magnitude + 1 / 2 = (2 * d.mantissa + unit : ℕ) / (2 * unit : ℕ) := by
      rw [Dyadic.magnitude, ← neg_neg d.exponent, zpow_neg, ← hunit]
      push_cast
      field_simp
    obtain ⟨hbits, hsign⟩ := magnitudeBits_nearestFloat d.negative
      ((2 * d.mantissa + unit) / (2 * unit)) 1
    rw [hvalue, Nat.floor_div_eq_div, hbits, hsign, unpackedSign_eq h]
    refine ⟨?_, rfl⟩
    simpa using rounded_nearestBits ((2 * d.mantissa + unit) / (2 * unit)) Nat.one_pos

theorem roundAway_infinity {x : Float} (h : magnitudeBits x = infinityBits) : roundAway x = x := by
  have hnone : Dyadic.ofFloat? x = none := by
    rw [Option.eq_none_iff_forall_not_mem]
    intro d hd
    have hlt := (Dyadic.ofFloat?_eq_some_iff.mp hd).1.rank_lt
    rw [← (magnitudeBits_of_ofFloat? hd).1] at hlt
    omega
  simp only [roundAway, hnone]

/-! ### Steps that keep order -/

/-- A function of doubles does not reverse the order of magnitudes, nor does it change a sign. -/
structure KeepsOrder (f : Float → Float) : Prop where
  le : ∀ {x}, magnitudeBits x ≤ infinityBits → magnitudeBits (f x) ≤ infinityBits
  mono : ∀ {x y}, magnitudeBits x ≤ magnitudeBits y → magnitudeBits y ≤ infinityBits →
    magnitudeBits (f x) ≤ magnitudeBits (f y)
  sign : ∀ {x}, magnitudeBits x ≤ infinityBits → unpackedSign (f x) = unpackedSign x

theorem KeepsOrder.comp {f g : Float → Float} (hg : KeepsOrder g) (hf : KeepsOrder f) :
    KeepsOrder (g ∘ f) :=
  ⟨fun hx => hg.le (hf.le hx), fun hxy hy => hg.mono (hf.mono hxy hy) (hf.le hy),
    fun hx => (hg.sign (hf.le hx)).trans (hf.sign hx)⟩

/-- An infinity is kept, and a finite double becomes the one nearest to a number that grows with
it. -/
theorem keepsOrder_of_rounded {f : Float → Float} {g : ℚ → ℚ} (hg : Monotone g)
    (hinfinity : ∀ {x}, magnitudeBits x = infinityBits →
      magnitudeBits (f x) = infinityBits ∧ unpackedSign (f x) = unpackedSign x)
    (hfinite : ∀ {x d}, Dyadic.ofFloat? x = some d →
      Rounded (g d.magnitude) (magnitudeBits (f x)) ∧ unpackedSign (f x) = unpackedSign x) :
    KeepsOrder f := by
  have hle {x : Float} (hx : magnitudeBits x ≤ infinityBits) :
      magnitudeBits (f x) ≤ infinityBits := by
    rcases eq_infinity_or_finite hx with h | ⟨d, hd⟩
    · exact (hinfinity h).1.le
    · exact (hfinite hd).1.le_infinityBits
  refine ⟨hle, fun {x y} hxy hy => ?_, fun {x} hx => ?_⟩
  · -- if only one of them is an infinity, it is the larger one
    rcases eq_infinity_or_finite hy with h | ⟨d', hd'⟩
    · rw [(hinfinity h).1]
      exact hle (hxy.trans hy)
    · obtain ⟨hbits', -⟩ := magnitudeBits_of_ofFloat? hd'
      have hcanonical' := (Dyadic.ofFloat?_eq_some_iff.mp hd').1
      have hlt := hcanonical'.rank_lt
      obtain ⟨d, hd⟩ := (eq_infinity_or_finite (hxy.trans hy)).resolve_left (by omega)
      obtain ⟨hbits, -⟩ := magnitudeBits_of_ofFloat? hd
      have hcanonical := (Dyadic.ofFloat?_eq_some_iff.mp hd).1
      rw [hbits, hbits'] at hxy
      exact (hfinite hd).1.mono (hfinite hd').1
        (hg ((hcanonical.magnitude_le_iff hcanonical').mpr hxy))
  · rcases eq_infinity_or_finite hx with h | ⟨d, hd⟩
    · exact (hinfinity h).2
    · exact (hfinite hd).2

section Positive

variable {c : Float} {d : Dyadic} (hc : Dyadic.ofFloat? c = some d) (hpos : d.mantissa ≠ 0)
  (hsign : d.negative = false)

include hc hpos hsign

theorem keepsOrder_mul : KeepsOrder (· * c) := by
  have hpositive : unpackedSign c = .positive := by rw [unpackedSign_eq hc, hsign]; rfl
  refine keepsOrder_of_rounded (g := (· * d.magnitude))
    (fun _ _ h => mul_le_mul_of_nonneg_right h d.magnitude_nonneg) (fun hx => ?_) fun hx => ?_
  · have hproduct := infinity_mul hx hc hpos
    rwa [hpositive, sign_mul_positive] at hproduct
  · have hproduct := rounded_mul hx hc
    rwa [hpositive, sign_mul_positive] at hproduct

theorem keepsOrder_div : KeepsOrder (· / c) := by
  have hpositive : unpackedSign c = .positive := by rw [unpackedSign_eq hc, hsign]; rfl
  refine keepsOrder_of_rounded (g := (· / d.magnitude))
    (fun _ _ h => div_le_div_of_nonneg_right h d.magnitude_nonneg) (fun hx => ?_) fun hx => ?_
  · have hquotient := infinity_div hx hc hpos
    rwa [hpositive, sign_div_positive] at hquotient
  · have hquotient := rounded_div hx hc hpos
    rwa [hpositive, sign_div_positive] at hquotient

end Positive

theorem keepsOrder_roundAway : KeepsOrder roundAway := by
  refine keepsOrder_of_rounded (g := fun r => (⌊r + 1 / 2⌋₊ : ℕ))
    (fun r r' h => Nat.cast_le.mpr (Nat.floor_mono (by linarith))) (fun hx => ?_) rounded_roundAway
  rw [roundAway_infinity hx]
  exact ⟨hx, rfl⟩

theorem tenPow_pos {places : ℕ} {d : Dyadic} (h : Dyadic.ofFloat? (tenPow places) = some d) :
    d.mantissa ≠ 0 ∧ d.negative = false := by
  have hd := (Dyadic.ofFloat?_eq_some_iff.mp h).1
  obtain ⟨hbits, hsign⟩ := magnitudeBits_nearestFloat false (Nat.pow 10 places) 1
  rw [← tenPow] at hbits hsign
  obtain ⟨hrank, hnegative⟩ := magnitudeBits_of_ofFloat? h
  have hone : 0 < nearestBits 1 1 := by decide
  have hle : nearestBits 1 1 ≤ nearestBits (Nat.pow 10 places) 1 := by
    refine (rounded_nearestBits 1 Nat.one_pos).mono (rounded_nearestBits _ Nat.one_pos) ?_
    rw [Nat.pow_eq, Nat.cast_one, div_one, div_one]
    exact_mod_cast Nat.one_le_pow places 10 (by decide)
  constructor
  · intro hzero
    have hrank' := hd.rank_eq_zero_iff.mpr (d.magnitude_eq_zero_iff.mpr hzero)
    omega
  · rw [unpackedSign_eq h] at hsign
    cases hnegative' : d.negative with
    | false => rfl
    | true => simp [hnegative'] at hsign

/-- Rounding to decimal places keeps order where the power of ten is finite. -/
theorem keepsOrder_roundTo {places : ℕ} (h : (tenPow places).isFinite = true) :
    KeepsOrder (roundTo places) := by
  obtain ⟨d, hd⟩ := Dyadic.isFinite_iff.mp h
  obtain ⟨hpos, hsign⟩ := tenPow_pos hd
  exact (keepsOrder_div hd hpos hsign).comp
    (keepsOrder_roundAway.comp (keepsOrder_mul hd hpos hsign))

end Reckon.Number
