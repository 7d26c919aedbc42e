/-
The bits of a double and its exact value.

The bits count the finite doubles of one sign upwards from zero: each exponent above the least one
has `2 ^ 52` of them. So a finite double is the same as a canonical dyadic number, one whose mantissa
has 53 bits, or fewer with the least exponent.

* `Dyadic.Canonical`, `Dyadic.bits` : the dyadic numbers that are doubles, and their bits.
* `ofFloat?_eq_some_iff` : reading the exact value from the bits.
* `eq_of_ofFloat?` : doubles of the same exact value and sign are the same.
* `ofFloat?_ofBits` : a double written as bits.
* `ofFloat?_neg` : the sign changed.
* `isFinite_iff` : finite doubles are those with an exact value.
-/
import Reckon.Proofs.SignedProduct

namespace Reckon.Number

open Float.Model Float.Model.UnpackedFloat

/-! ### Canonical dyadic numbers -/

namespace Dyadic

/-- The number is a double, written with its own exponent. -/
structure Canonical (d : Dyadic) : Prop where
  mantissa_lt : d.mantissa < 2 ^ 53
  le_mantissa : -1074 < d.exponent → 2 ^ 52 ≤ d.mantissa
  le_exponent : -1074 ≤ d.exponent
  exponent_le : d.exponent ≤ 971

/-- The bits of a canonical number. Where the mantissa has 53 bits, the highest one counts into the
exponent. -/
def bits (d : Dyadic) : Nat :=
  (d.exponent + 1074).toNat * 2 ^ 52 + d.mantissa + if d.negative then 2 ^ 63 else 0

theorem Canonical.bits_lt {d : Dyadic} (h : d.Canonical) : d.bits < 2 ^ 64 := by
  obtain ⟨hlt, -, -, hle⟩ := h
  rw [bits]
  split <;> omega

/-- A double has the exact value that its bits tell. -/
theorem ofFloat?_eq_some_iff {x : Float} {d : Dyadic} :
    ofFloat? x = some d ↔ d.Canonical ∧ x.toBits.toNat = d.bits := by
  have hbits : x.toBits.toNat < 2 ^ 64 := x.toBits.toNat_lt
  have h52 : Nat.pow 2 52 = 2 ^ 52 := rfl
  have h63 : Nat.pow 2 63 = 2 ^ 63 := rfl
  have h11 : Nat.pow 2 11 = 2 ^ 11 := rfl
  obtain ⟨negative, m, e⟩ := d
  simp only [ofFloat?, h52, h63, h11, bits]
  generalize x.toBits.toNat = b at hbits
  have hsign : (if decide (2 ^ 63 ≤ b) = true then 2 ^ 63 else 0) = b / 2 ^ 63 * 2 ^ 63 := by
    simp only [decide_eq_true_eq]
    split <;> omega
  constructor
  · intro h
    split at h
    · cases h
    · split at h
      · simp only [Option.some.injEq, mk.injEq] at h
        obtain ⟨rfl, rfl, rfl⟩ := h
        rw [hsign]
        exact ⟨⟨by simp only; omega, by simp, by simp, by simp⟩, by omega⟩
      · simp only [Option.some.injEq, mk.injEq] at h
        obtain ⟨rfl, rfl, rfl⟩ := h
        rw [hsign]
        exact ⟨⟨by simp only; omega, by simp, by simp only; omega, by simp only; omega⟩, by omega⟩
  · rintro ⟨⟨hlt, hnormal, hle, hmax⟩, hb⟩
    simp only at hlt hnormal hle hmax
    have hnegative : decide (2 ^ 63 ≤ b) = negative := by
      cases negative with
      | true => simpa using (by simp at hb; omega : 2 ^ 63 ≤ b)
      | false => simpa using (by simp at hb; omega : b < 2 ^ 63)
    rw [hnegative]
    have hb' : b % 2 ^ 63 = (e + 1074).toNat * 2 ^ 52 + m := by
      cases negative <;> simp only [if_true, Bool.false_eq_true, if_false] at hb <;> omega
    by_cases hm : m < 2 ^ 52
    · have he : e = -1074 := by omega
      have hfield : b / 2 ^ 52 % 2 ^ 11 = 0 := by omega
      rw [hfield, if_neg (by omega), if_pos rfl, he]
      have hfraction : b % 2 ^ 52 = m := by omega
      rw [hfraction]
    · have hfield : b / 2 ^ 52 % 2 ^ 11 = (e + 1075).toNat := by omega
      have hfraction : 2 ^ 52 + b % 2 ^ 52 = m := by omega
      rw [hfield, if_neg (by omega), if_neg (by omega), hfraction]
      have he : ((e + 1075).toNat : Int) - 1075 = e := by omega
      rw [he]

/-- Doubles with the same sign and exact value are the same. -/
theorem eq_of_ofFloat? {x y : Float} {d : Dyadic} (hx : ofFloat? x = some d)
    (hy : ofFloat? y = some d) : x = y := by
  have hbits : x.toBits.toNat = y.toBits.toNat :=
    (ofFloat?_eq_some_iff.mp hx).2.trans (ofFloat?_eq_some_iff.mp hy).2.symm
  obtain ⟨⟨a, ha⟩⟩ := x
  obtain ⟨⟨b, hb⟩⟩ := y
  obtain rfl : a = b := UInt64.toNat_inj.mp hbits
  rfl

/-! ### Words -/

/-- The number that a word is. -/
theorem toNat_packComponents (s : Sign) (e : BitVec 11) (m : BitVec 52) :
    (packComponents .binary64 s e m).toNat =
      s.toBitVec.toNat * 2 ^ 63 + e.toNat * 2 ^ 52 + m.toNat := by
  have he : e.toNat < 2 ^ 11 := e.isLt
  have hm : m.toNat < 2 ^ 52 := m.isLt
  rw [packComponents, BitVec.toNat_append, BitVec.toNat_append,
    ← Nat.shiftLeft_add_eq_or_of_lt he, ← Nat.shiftLeft_add_eq_or_of_lt hm, Nat.shiftLeft_eq,
    Nat.shiftLeft_eq]
  show (s.toBitVec.toNat * 2 ^ 11 + e.toNat) * 2 ^ 52 + m.toNat = _
  ring

/-- The bits of a canonical number are a word whose exponent is not the last one. -/
theorem Canonical.exists_components {d : Dyadic} (hd : d.Canonical) {b : BitVec 64}
    (hb : b.toNat = d.bits) : ∃ s e m, b = packComponents .binary64 s e m ∧ e ≠ -1#11 := by
  obtain ⟨s, e, m, rfl⟩ := exists_packComponents (S := .binary64) b
  refine ⟨s, e, m, rfl, ?_⟩
  rintro rfl
  have hvalue : s.toBitVec.toNat * 2 ^ 63 + 2047 * 2 ^ 52 + m.toNat = d.bits := by
    rwa [toNat_packComponents] at hb
  obtain ⟨hlt, -, hle, hmax⟩ := hd
  have hm : m.toNat < 2 ^ 52 := m.isLt
  rw [bits] at hvalue
  split at hvalue <;> omega

/-- The double with the bits of a canonical number is that number. -/
theorem ofFloat?_ofBits {d : Dyadic} (hd : d.Canonical) :
    ofFloat? (Float.ofBits (UInt64.ofNat d.bits)) = some d := by
  have hnat : (UInt64.ofNat d.bits).toBitVec.toNat = d.bits :=
    UInt64.toNat_ofNat_of_lt' hd.bits_lt
  refine ofFloat?_eq_some_iff.mpr ⟨hd, ?_⟩
  obtain ⟨s, e, m, hword, he⟩ := hd.exists_components hnat
  show (UnpackedFloat.pack .binary64
    (UnpackedFloat.unpack .binary64 (UInt64.ofNat d.bits).toBitVec)).toNat = d.bits
  rw [hword, pack_unpack s e m fun h => absurd h he, ← hword, hnat]

/-- The number with its sign changed. -/
def neg (d : Dyadic) : Dyadic :=
  { d with negative := !d.negative }

theorem ofFloat?_neg {x : Float} {d : Dyadic} (h : ofFloat? x = some d) :
    ofFloat? (-x) = some d.neg := by
  obtain ⟨hd, hbits⟩ := ofFloat?_eq_some_iff.mp h
  obtain ⟨s, e, m, hword, he⟩ := hd.exists_components (b := x.toBits.toBitVec) hbits
  refine ofFloat?_eq_some_iff.mpr ⟨⟨hd.1, hd.2, hd.3, hd.4⟩, ?_⟩
  have hneg : (-x).toBits.toBitVec = packComponents .binary64 (-s) e m := by
    show UnpackedFloat.pack .binary64 (UnpackedFloat.unpack .binary64 x.toBits.toBitVec).neg = _
    rw [hword, neg_unpack, pack_unpack (-s) e m fun h => absurd h he]
  have hnat : s.toBitVec.toNat * 2 ^ 63 + e.toNat * 2 ^ 52 + m.toNat = d.bits := by
    rw [← toNat_packComponents, ← hword]
    exact hbits
  show (-x).toBits.toBitVec.toNat = d.neg.bits
  rw [hneg, toNat_packComponents]
  obtain ⟨hlt, -, -, hmax⟩ := hd
  have hexponent : e.toNat < 2 ^ 11 := e.isLt
  have hmantissa : m.toNat < 2 ^ 52 := m.isLt
  rw [bits] at hnat
  rw [bits, neg]
  cases s <;> cases hsign : d.negative <;> simp [hsign, Sign.toBitVec] at hnat ⊢ <;> omega

theorem isFinite_unpack (s : Sign) (e : BitVec 11) (m : BitVec 52) :
    (UnpackedFloat.unpack .binary64 (packComponents .binary64 s e m)).isFinite = true ↔
      e ≠ -1#11 := by
  simp only [UnpackedFloat.unpack, unpackMantissa_packComponents, unpackExponent_packComponents]
  by_cases he : e = -1#11
  · rw [if_pos he]
    split <;> exact ⟨nofun, fun h => absurd he h⟩
  · rw [if_neg he]
    split
    · split <;> exact ⟨fun _ => he, fun _ => rfl⟩
    · exact ⟨fun _ => he, fun _ => rfl⟩

/-- The finite doubles are those with an exact value. -/
theorem isFinite_iff {x : Float} : x.isFinite = true ↔ ∃ d, ofFloat? x = some d := by
  show (UnpackedFloat.unpack .binary64 x.toBits.toBitVec).isFinite = true ↔ _
  constructor
  · intro h
    obtain ⟨s, e, m, hword⟩ := exists_packComponents (S := .binary64) x.toBits.toBitVec
    rw [hword, isFinite_unpack] at h
    have hnat : x.toBits.toNat = s.toBitVec.toNat * 2 ^ 63 + e.toNat * 2 ^ 52 + m.toNat := by
      rw [← toNat_packComponents, ← hword]
      rfl
    have hfield : x.toBits.toNat / Nat.pow 2 52 % Nat.pow 2 11 ≠ Nat.pow 2 11 - 1 := by
      have h52 : Nat.pow 2 52 = 2 ^ 52 := rfl
      have h11 : Nat.pow 2 11 = 2 ^ 11 := rfl
      have hexponent : e.toNat < 2 ^ 11 := e.isLt
      have hmantissa : m.toNat < 2 ^ 52 := m.isLt
      have he : e.toNat ≠ 2047 := fun he => h (BitVec.eq_of_toNat_eq he)
      rw [h52, h11]
      omega
    rw [ofFloat?, if_neg hfield]
    split <;> exact ⟨_, rfl⟩
  · rintro ⟨d, hd⟩
    obtain ⟨hcanonical, hbits⟩ := ofFloat?_eq_some_iff.mp hd
    obtain ⟨s, e, m, hword, he⟩ := hcanonical.exists_components (b := x.toBits.toBitVec) hbits
    rw [hword]
    exact (isFinite_unpack s e m).mpr he

end Dyadic

end Reckon.Number
