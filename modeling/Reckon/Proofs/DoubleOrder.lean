/-
The order of doubles.

Without their sign bit, the bits of a double count upwards with its magnitude, and the infinities
come last. So doubles compare like the numbers that are these counts, with their signs put back, and
finite doubles compare like their exact values.

* `magnitudeBits`, `isNegative`, `key` : the bits without the sign, the sign, and both together.
* `le_iff_key_le`, `lt_iff_key_lt` : comparing doubles other than NaN.
* `Rounded` : the bits of the double that is nearest to a number, told without computing them.
* `Rounded.mono`, `Rounded.unique` : rounding keeps order, and has one result.
* `Dyadic.value`, `le_iff_value_le` : finite doubles compare like their exact values.
-/
import Reckon.Proofs.Nearest

namespace Reckon.Number

open Float.Model Float.Model.UnpackedFloat

/-! ### Rounding told by its result -/

/-- A number between zero and the next power of two is counted in units `2 ^ e` of a double. -/
structure UnitOf (r : ℚ) (e : ℤ) : Prop where
  nonneg : 0 ≤ r
  le : -1074 ≤ e
  lt : r < 2 ^ (53 + e)
  ge : -1074 < e → (2 : ℚ) ^ (52 + e) ≤ r

/-- The bits of an infinity without its sign. They follow those of the largest double. -/
def infinityBits : ℕ :=
  2047 * 2 ^ 52

/-- The bits without a sign of the double that is nearest to a number. -/
def Rounded (r : ℚ) (b : ℕ) : Prop :=
  ∃ e q, UnitOf r e ∧ RoundsTo (r / 2 ^ e) q ∧
    b = min ((e + 1074).toNat * 2 ^ 52 + q) infinityBits

theorem UnitOf.div_lt {r : ℚ} {e : ℤ} (h : UnitOf r e) : r / 2 ^ e < 2 ^ 53 := by
  rw [div_lt_iff₀ (two_zpow_pos _)]
  have hlt := h.lt
  rwa [zpow_add₀ (by norm_num)] at hlt

theorem UnitOf.le_div {r : ℚ} {e : ℤ} (h : UnitOf r e) (he : -1074 < e) :
    (2 : ℚ) ^ 52 ≤ r / 2 ^ e := by
  rw [le_div_iff₀ (two_zpow_pos _)]
  have hge := h.ge he
  rwa [zpow_add₀ (by norm_num)] at hge

/-- A larger number is not counted in smaller units. -/
theorem UnitOf.mono {r r' : ℚ} {e e' : ℤ} (h : UnitOf r e) (h' : UnitOf r' e') (hr : r ≤ r') :
    e ≤ e' := by
  by_contra hlt
  have hle := h'.le
  have hpower : (2 : ℚ) ^ (52 + e) < 2 ^ (53 + e') :=
    calc (2 : ℚ) ^ (52 + e) ≤ r := h.ge (by omega)
      _ ≤ r' := hr
      _ < 2 ^ (53 + e') := h'.lt
  have hexponents := (zpow_lt_zpow_iff_right₀ (by norm_num : (1 : ℚ) < 2)).mp hpower
  omega

/-- Rounding to the nearest double keeps order. -/
theorem Rounded.mono {r r' : ℚ} {b b' : ℕ} (h : Rounded r b) (h' : Rounded r' b') (hr : r ≤ r') :
    b ≤ b' := by
  obtain ⟨e, q, hunit, hround, rfl⟩ := h
  obtain ⟨e', q', hunit', hround', rfl⟩ := h'
  have hle := hunit.mono hunit' hr
  have hleast := hunit.le
  apply min_le_min_right
  rcases eq_or_lt_of_le hle with rfl | hlt
  · have hq : q ≤ q' :=
      hround.mono hround' (div_le_div_of_nonneg_right hr (two_zpow_pos e).le)
    omega
  · -- a smaller unit: the count does not pass that of the next power of two
    have hq : q ≤ 2 ^ 53 :=
      hround.mono (RoundsTo.natCast _) (by exact_mod_cast hunit.div_lt.le)
    have hq' : 2 ^ 52 ≤ q' :=
      (RoundsTo.natCast _).mono hround' (by exact_mod_cast hunit'.le_div (by omega))
    omega

theorem Rounded.unique {r : ℚ} {b b' : ℕ} (h : Rounded r b) (h' : Rounded r b') : b = b' :=
  Nat.le_antisymm (h.mono h' le_rfl) (h'.mono h le_rfl)

/-- The bits that are computed for a quotient are those of the nearest double. -/
theorem rounded_nearestBits (num : ℕ) {den : ℕ} (hden : 0 < den) :
    Rounded (num / den) (nearestBits num den) := by
  rcases Nat.eq_zero_or_pos num with rfl | hnum
  · refine ⟨-1074, 0, ⟨by simp, le_rfl, by simp, by simp⟩, ?_, by
      simp [nearestBits]⟩
    simpa using RoundsTo.natCast 0
  · refine ⟨lastPlace num den, roundedUnits num den,
      ⟨by positivity, le_max_left .., ?_, fun h => ?_⟩, roundsTo_roundedUnits num hden,
      nearestBits_eq hnum⟩
    · have hlt : (num / den / 2 ^ lastPlace num den : ℚ) < 2 ^ 53 := lt_pow_roundedUnits hden
      rw [div_lt_iff₀ (two_zpow_pos _)] at hlt
      rwa [zpow_add₀ (by norm_num)]
    · have hge := pow_le_roundedUnits hnum hden h
      rw [le_div_iff₀ (two_zpow_pos _)] at hge
      rwa [zpow_add₀ (by norm_num)]

/-! ### The bits without the sign -/

/-- The bits of a double without its sign. -/
def magnitudeBits (x : Float) : ℕ :=
  x.toBits.toNat % 2 ^ 63

/-- The sign bit is set. -/
def isNegative (x : Float) : Bool :=
  2 ^ 63 ≤ x.toBits.toNat

/-- The sign of a double, as it is unpacked. -/
def unpackedSign (x : Float) : Sign :=
  if isNegative x then .negative else .positive

/-- The bits without the sign, as a number with the sign. -/
def key (x : Float) : ℤ :=
  if isNegative x then -magnitudeBits x else magnitudeBits x

theorem key_eq (x : Float) : key x = (unpackedSign x).apply (magnitudeBits x) := by
  rw [key, unpackedSign]
  cases isNegative x <;> rfl

namespace Dyadic

/-- The bits of a canonical number without its sign. -/
def rank (d : Dyadic) : ℕ :=
  (d.exponent + 1074).toNat * 2 ^ 52 + d.mantissa

theorem Canonical.rank_lt {d : Dyadic} (h : d.Canonical) : d.rank < infinityBits := by
  obtain ⟨hlt, -, -, hle⟩ := h
  rw [rank, infinityBits]
  omega

theorem magnitude_nonneg (d : Dyadic) : 0 ≤ d.magnitude :=
  mul_nonneg (Nat.cast_nonneg _) (two_zpow_pos _).le

/-- A canonical number is its own nearest double. -/
theorem Canonical.rounded {d : Dyadic} (h : d.Canonical) : Rounded d.magnitude d.rank := by
  have hmantissa : (d.mantissa : ℚ) < 2 ^ 53 := by exact_mod_cast h.mantissa_lt
  refine ⟨d.exponent, d.mantissa, ⟨d.magnitude_nonneg, h.le_exponent, ?_, fun he => ?_⟩, ?_, ?_⟩
  · rw [zpow_add₀ (by norm_num)]
    exact mul_lt_mul_of_pos_right hmantissa (two_zpow_pos _)
  · have hle : (2 : ℚ) ^ 52 ≤ d.mantissa := by exact_mod_cast h.le_mantissa he
    rw [zpow_add₀ (by norm_num)]
    exact mul_le_mul_of_nonneg_right hle (two_zpow_pos _).le
  · rw [magnitude, mul_div_cancel_right₀ _ (two_zpow_pos _).ne']
    exact RoundsTo.natCast _
  · exact (min_eq_left h.rank_lt.le).symm

theorem Canonical.eq_of_rank {d d' : Dyadic} (h : d.Canonical) (h' : d'.Canonical)
    (hrank : d.rank = d'.rank) : d.mantissa = d'.mantissa ∧ d.exponent = d'.exponent := by
  obtain ⟨hlt, hnormal, hle, -⟩ := h
  obtain ⟨hlt', hnormal', hle', -⟩ := h'
  rw [rank, rank] at hrank
  omega

/-- Magnitudes compare like bits. -/
theorem Canonical.magnitude_le_iff {d d' : Dyadic} (h : d.Canonical) (h' : d'.Canonical) :
    d.magnitude ≤ d'.magnitude ↔ d.rank ≤ d'.rank := by
  refine ⟨h.rounded.mono h'.rounded, fun hrank => ?_⟩
  by_contra hlt
  have hback := h'.rounded.mono h.rounded (not_le.mp hlt).le
  obtain ⟨hmantissa, hexponent⟩ := h.eq_of_rank h' (Nat.le_antisymm hrank hback)
  rw [magnitude, magnitude, hmantissa, hexponent] at hlt
  exact hlt le_rfl

end Dyadic

/-- The bits of a finite double, taken apart. -/
theorem magnitudeBits_of_ofFloat? {x : Float} {d : Dyadic} (h : Dyadic.ofFloat? x = some d) :
    magnitudeBits x = d.rank ∧ isNegative x = d.negative := by
  obtain ⟨hd, hbits⟩ := Dyadic.ofFloat?_eq_some_iff.mp h
  have hrank := hd.rank_lt
  rw [infinityBits] at hrank
  rw [Dyadic.bits, ← Dyadic.rank] at hbits
  rw [magnitudeBits, isNegative, hbits]
  cases d.negative <;> simp <;> omega

/-! ### Comparing -/

/-- What a word that is no NaN is read as, and what it counts as without its sign. -/
inductive Reads (s : Sign) : UnpackedFloat → ℕ → Prop
  | zero : Reads s (.zero s) 0
  | finite {d : Dyadic} (hd : d.Canonical) (h : 0 < d.mantissa) :
      Reads s (.finite s d.mantissa d.exponent h) d.rank
  | infinity : Reads s (.infinity s) infinityBits

theorem reads_unpack (s : Sign) {e : BitVec 11} {m : BitVec 52} (h : e = -1#11 → m = 0#52) :
    Reads s (UnpackedFloat.unpack .binary64 (packComponents .binary64 s e m))
      (e.toNat * 2 ^ 52 + m.toNat) := by
  have he : e.toNat < 2 ^ 11 := e.isLt
  have hm : m.toNat < 2 ^ 52 := m.isLt
  simp only [UnpackedFloat.unpack, unpackMantissa_packComponents, unpackExponent_packComponents,
    unpackSign_packComponents, ofBitVec_toBitVec]
  -- the field of the exponent tells the kind; the last value is that of the infinities
  by_cases hlast : e = -1#11
  · rw [if_pos hlast, if_pos (h hlast), hlast, h hlast]
    exact .infinity
  · have hne : e.toNat ≠ 2047 := fun heq => hlast (BitVec.eq_of_toNat_eq heq)
    rw [if_neg hlast]
    by_cases hzero : e = 0#11
    · subst hzero
      rw [if_pos rfl]
      by_cases hmantissa : m = 0#52
      · rw [dif_pos hmantissa, hmantissa]
        exact .zero
      · rw [dif_neg hmantissa]
        have hpos : 0 < m.toNat := Nat.pos_of_ne_zero fun h0 =>
          hmantissa (BitVec.eq_of_toNat_eq h0)
        have hd : (⟨false, m.toNat, -1074⟩ : Dyadic).Canonical :=
          ⟨by simp only; omega, by simp, le_rfl, by simp⟩
        have hrank : (⟨false, m.toNat, -1074⟩ : Dyadic).rank = (0#11).toNat * 2 ^ 52 + m.toNat := by
          rw [Dyadic.rank]
          simp
        rw [← hrank]
        exact .finite hd hpos
    · -- a one is put in front of the bits that are stored
      rw [if_neg hzero]
      have hpos : e.toNat ≠ 0 := fun h0 => hzero (BitVec.eq_of_toNat_eq h0)
      have hmantissa : (1#1 ++ m).toNat = 2 ^ 52 + m.toNat := by
        rw [BitVec.toNat_append, ← Nat.shiftLeft_add_eq_or_of_lt m.isLt]
        rfl
      have hd : (⟨false, (1#1 ++ m).toNat, (e.toNat : ℤ) - 1075⟩ : Dyadic).Canonical := by
        refine ⟨?_, ?_, ?_, ?_⟩ <;> simp only <;> omega
      have hpositive : 0 < (1#1 ++ m).toNat := by omega
      have hrank : (⟨false, (1#1 ++ m).toNat, (e.toNat : ℤ) - 1075⟩ : Dyadic).rank =
          e.toNat * 2 ^ 52 + m.toNat := by
        rw [Dyadic.rank, hmantissa]
        simp only
        omega
      rw [← hrank]
      exact .finite hd hpositive

/-- Numbers of 53 bits with their exponents compare like their bits. -/
theorem compares_rank {d d' : Dyadic} (hd : d.Canonical) (hd' : d'.Canonical) :
    ((compare d.exponent d'.exponent).then (compare d.mantissa d'.mantissa)).Compares
      (d.rank : ℤ) d'.rank := by
  obtain ⟨hlt, hnormal, hle, -⟩ := hd
  obtain ⟨hlt', hnormal', hle', -⟩ := hd'
  rw [Dyadic.rank, Dyadic.rank]
  rcases lt_trichotomy d.exponent d'.exponent with h | h | h
  · rw [Int.compare_eq_lt.mpr h]
    simp only [Ordering.then, Ordering.Compares]
    omega
  · rw [h, Int.compare_eq_eq.mpr rfl, Ordering.eq_then]
    have hmantissa := (compare_iff d.mantissa d'.mantissa).mp rfl
    cases ho : compare d.mantissa d'.mantissa <;> rw [ho] at hmantissa <;>
      simp only [Ordering.Compares] at hmantissa ⊢ <;> omega
  · rw [Int.compare_eq_gt.mpr h]
    simp only [Ordering.then, Ordering.Compares]
    omega

theorem Dyadic.rank_pos {d : Dyadic} (h : 0 < d.mantissa) : 0 < d.rank := by
  rw [rank]
  omega

/-- Doubles other than NaN compare like their bits with the signs put back. -/
theorem compare_of_reads {s s' : Sign} {u u' : UnpackedFloat} {n n' : ℕ} (h : Reads s u n)
    (h' : Reads s' u' n') : u.compare u' = some (compare (s.apply n) (s'.apply n')) := by
  have hinfinity : 0 < infinityBits := by decide
  have hresult {o : Ordering} (ho : o.Compares (s.apply n) (s'.apply n')) :
      some o = some (compare (s.apply n) (s'.apply n')) :=
    congrArg some ((compare_iff _ _).mpr ho).symm
  -- only two finite numbers of one sign are not told apart by their kinds
  cases h with
  | zero =>
    cases h' with
    | zero => exact hresult (by cases s <;> cases s' <;> rfl)
    | finite hd' hm' =>
      have hpos := Dyadic.rank_pos hm'
      cases s' <;> apply hresult <;> cases s <;> simp [Ordering.Compares, Sign.apply] <;> omega
    | infinity =>
      cases s' <;> apply hresult <;> cases s <;> simp [Ordering.Compares, Sign.apply] <;> omega
  | @finite d hd hm =>
    have hpos := Dyadic.rank_pos hm
    have hlt := hd.rank_lt
    cases h' with
    | zero =>
      cases s <;> apply hresult <;> cases s' <;> simp [Ordering.Compares, Sign.apply] <;> omega
    | @finite d' hd' hm' =>
      have hpos' := Dyadic.rank_pos hm'
      cases s <;> cases s'
      · show some ((compare d.exponent d'.exponent).then (compare d.mantissa d'.mantissa)).swap = _
        have hranks := compares_rank hd hd'
        apply hresult
        generalize (compare d.exponent d'.exponent).then (compare d.mantissa d'.mantissa) = o
          at hranks
        cases o <;> simp [Ordering.Compares, Sign.apply] at hranks ⊢ <;> omega
      · exact hresult (o := .lt) (by simp [Ordering.Compares, Sign.apply]; omega)
      · exact hresult (o := .gt) (by simp [Ordering.Compares, Sign.apply]; omega)
      · exact hresult (compares_rank hd hd')
    | infinity =>
      cases s' <;> apply hresult <;> cases s <;> simp [Ordering.Compares, Sign.apply] <;> omega
  | infinity =>
    cases h' with
    | zero =>
      cases s <;> apply hresult <;> cases s' <;> simp [Ordering.Compares, Sign.apply] <;> omega
    | finite hd' hm' =>
      have hlt' := hd'.rank_lt
      cases s <;> apply hresult <;> cases s' <;> simp [Ordering.Compares, Sign.apply] <;> omega
    | infinity =>
      cases s <;> cases s'
      · exact hresult (o := .eq) rfl
      · exact hresult (o := .lt) (by simp [Ordering.Compares, Sign.apply]; omega)
      · exact hresult (o := .gt) (by simp [Ordering.Compares, Sign.apply]; omega)
      · exact hresult (o := .eq) rfl

/-- A double other than NaN, read with its sign. -/
theorem reads_of_le {x : Float} (h : magnitudeBits x ≤ infinityBits) :
    Reads (unpackedSign x) x.toModel.unpack (magnitudeBits x) := by
  obtain ⟨s, e, m, hword⟩ := exists_packComponents (S := .binary64) x.toBits.toBitVec
  have hbits : x.toBits.toNat = s.toBitVec.toNat * 2 ^ 63 + e.toNat * 2 ^ 52 + m.toNat := by
    rw [← Dyadic.toNat_packComponents, ← hword]
    rfl
  have he : e.toNat < 2 ^ 11 := e.isLt
  have hm : m.toNat < 2 ^ 52 := m.isLt
  have hmagnitude : magnitudeBits x = e.toNat * 2 ^ 52 + m.toNat := by
    rw [magnitudeBits, hbits]
    omega
  have hsign : unpackedSign x = s := by
    rw [unpackedSign, isNegative, hbits]
    cases s <;> simp [Sign.toBitVec] <;> omega
  -- with a mantissa, the bits would be more than those of an infinity
  have hvalid : e = -1#11 → m = 0#52 := by
    rintro rfl
    rw [hmagnitude, infinityBits] at h
    have hzero : m.toNat = 0 := by
      have hlast : (-1#11).toNat = 2047 := rfl
      omega
    exact BitVec.eq_of_toNat_eq hzero
  rw [hsign, hmagnitude]
  show Reads s (UnpackedFloat.unpack .binary64 x.toBits.toBitVec) _
  rw [hword]
  exact reads_unpack s hvalid

theorem compare_eq_key {x y : Float} (hx : magnitudeBits x ≤ infinityBits)
    (hy : magnitudeBits y ≤ infinityBits) :
    x.toModel.unpack.compare y.toModel.unpack = some (compare (key x) (key y)) := by
  rw [key_eq, key_eq]
  exact compare_of_reads (reads_of_le hx) (reads_of_le hy)

theorem le_iff_key_le {x y : Float} (hx : magnitudeBits x ≤ infinityBits)
    (hy : magnitudeBits y ≤ infinityBits) : x ≤ y ↔ key x ≤ key y := by
  have hle : x ≤ y ↔ (x.toModel.unpack.compare y.toModel.unpack).any (·.isLE) = true := by
    show decide (x.toModel ≤ y.toModel) = true ↔ _
    rw [decide_eq_true_eq]
    exact Iff.rfl
  rw [hle, compare_eq_key hx hy]
  exact Int.isLE_compare

theorem lt_iff_key_lt {x y : Float} (hx : magnitudeBits x ≤ infinityBits)
    (hy : magnitudeBits y ≤ infinityBits) : x < y ↔ key x < key y := by
  have hlt : x < y ↔ (x.toModel.unpack.compare y.toModel.unpack == some .lt) = true := by
    show decide (x.toModel < y.toModel) = true ↔ _
    rw [decide_eq_true_eq]
    exact Iff.rfl
  rw [hlt, compare_eq_key hx hy, beq_iff_eq, Option.some.injEq]
  exact Int.compare_eq_lt

theorem beq_iff_key_eq {x y : Float} (hx : magnitudeBits x ≤ infinityBits)
    (hy : magnitudeBits y ≤ infinityBits) : (x == y) = true ↔ key x = key y := by
  show (x.toModel.unpack.compare y.toModel.unpack == some .eq) = true ↔ _
  rw [compare_eq_key hx hy, beq_iff_eq, Option.some.injEq]
  exact Int.compare_eq_eq

/-! ### Exact values -/

namespace Dyadic

/-- The exact value. -/
def value (d : Dyadic) : ℚ :=
  if d.negative then -d.magnitude else d.magnitude

theorem Canonical.rank_eq_zero_iff {d : Dyadic} (h : d.Canonical) :
    d.rank = 0 ↔ d.magnitude = 0 := by
  obtain ⟨-, hnormal, hle, -⟩ := h
  rw [magnitude_eq_zero_iff, rank]
  omega

/-- The bits with the sign put back compare like the exact values. -/
theorem Canonical.value_le_iff {d d' : Dyadic} (h : d.Canonical) (h' : d'.Canonical) :
    d.value ≤ d'.value ↔ (if d.negative then -(d.rank : ℤ) else d.rank) ≤
      if d'.negative then -(d'.rank : ℤ) else d'.rank := by
  have hle := h.magnitude_le_iff h'
  have hge := h'.magnitude_le_iff h
  have hzero := h.rank_eq_zero_iff
  have hzero' := h'.rank_eq_zero_iff
  have hpos := d.magnitude_nonneg
  have hpos' := d'.magnitude_nonneg
  rw [value, value]
  cases d.negative <;> cases d'.negative <;> simp only [if_true, if_false, Bool.false_eq_true]
  · rw [hle, Nat.cast_le]
  · -- a number that is not negative is at most one that is not positive: both are zero
    constructor
    · intro hvalues
      have hnone : d.rank = 0 := hzero.mpr (by linarith)
      have hnone' : d'.rank = 0 := hzero'.mpr (by linarith)
      omega
    · intro hranks
      rw [hzero.mp (by omega), hzero'.mp (by omega), neg_zero]
  · exact iff_of_true (by linarith) (by omega)
  · rw [neg_le_neg_iff, neg_le_neg_iff, hge, Nat.cast_le]

end Dyadic

/-- Finite doubles compare like their exact values. -/
theorem le_iff_value_le {x y : Float} {d d' : Dyadic} (hx : Dyadic.ofFloat? x = some d)
    (hy : Dyadic.ofFloat? y = some d') : x ≤ y ↔ d.value ≤ d'.value := by
  have hd := (Dyadic.ofFloat?_eq_some_iff.mp hx).1
  have hd' := (Dyadic.ofFloat?_eq_some_iff.mp hy).1
  obtain ⟨hbits, hsign⟩ := magnitudeBits_of_ofFloat? hx
  obtain ⟨hbits', hsign'⟩ := magnitudeBits_of_ofFloat? hy
  rw [le_iff_key_le (by rw [hbits]; exact hd.rank_lt.le) (by rw [hbits']; exact hd'.rank_lt.le),
    key, key, hsign, hsign', hbits, hbits', hd.value_le_iff hd']

end Reckon.Number
