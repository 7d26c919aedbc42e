/-
When an alternate is offered.

The threshold of a rule is compared with the converted amount rounded in floating point, while the
text shows the amount rounded exactly. Both keep order, so each of them reaches the bound from one
double on. The two doubles are computed for every rule: they are the same one, or they are
neighbours and only the double nearest to the tie below the bound lies between them.

* `ReachedAt`, `ShownAt` : the doubles from which on a bound is reached.
* `Coincide`, `rules_coincide` : what is computed for every rule.
* `JustBelow` : the double for which the two roundings differ.
* `Coincide.atLeast_isMet_iff`, `Coincide.below_isMet_iff` : thresholds by printed numbers.
* `alternate_agrees`, `alternate_below_iff` : the alternate of every rule.
-/
import Reckon.Proofs.PrintedDecimal
import Reckon.Proofs.RoundedPlaces
import Reckon.Proofs.RuleChain

namespace Reckon.Number

open Float.Model.UnpackedFloat

/-! ### Where a rounded double reaches a bound -/

/-- The double without a sign that has these bits. -/
def doubleAt (n : ℕ) : Float :=
  Float.ofBits (UInt64.ofNat n)

theorem magnitudeBits_doubleAt {n : ℕ} (h : n ≤ infinityBits) :
    magnitudeBits (doubleAt n) = n := by
  have hbits := (magnitudeBits_ofBits .positive h).1
  rwa [show Sign.positive.toBitVec.toNat * 2 ^ 63 + n = n by simp [Sign.toBitVec]] at hbits

/-- What is computed at the double with the bits `n` is at least `b`, and one double below it is
not. -/
def ReachedAt (places n b : ℕ) : Prop :=
  0 < n ∧ n ≤ infinityBits ∧ magnitudeBits (roundTo places (doubleAt (n - 1))) < b ∧
    b ≤ magnitudeBits (roundTo places (doubleAt n))

/-- What is printed for the double with the bits `n` is at least `q`, and one double below it is
not. -/
def ShownAt (places n : ℕ) (q : ℚ) : Prop :=
  0 < n ∧ n ≤ infinityBits ∧
    (∃ d ∈ Dyadic.ofFloat? (doubleAt (n - 1)), |d.decimal places| < q) ∧
    ∃ d ∈ Dyadic.ofFloat? (doubleAt n), q ≤ |d.decimal places|

instance (places n b : ℕ) : Decidable (ReachedAt places n b) :=
  inferInstanceAs (Decidable (_ ∧ _ ∧ _ ∧ _))

instance (places n : ℕ) (q : ℚ) : Decidable (ShownAt places n q) :=
  inferInstanceAs (Decidable (_ ∧ _ ∧ _ ∧ _))

theorem ReachedAt.le_iff {places n b : ℕ} (h : ReachedAt places n b)
    (hten : (tenPow places).isFinite = true) {x : Float} (hx : magnitudeBits x ≤ infinityBits) :
    b ≤ magnitudeBits (roundTo places x) ↔ n ≤ magnitudeBits x := by
  obtain ⟨hpos, hn, hlow, hhigh⟩ := h
  have hkeeps := keepsOrder_roundTo hten
  constructor
  · intro hb
    by_contra hlt
    have hle : magnitudeBits x ≤ magnitudeBits (doubleAt (n - 1)) := by
      rw [magnitudeBits_doubleAt (by omega)]
      omega
    have hmono := hkeeps.mono hle (by rw [magnitudeBits_doubleAt (by omega)]; omega)
    omega
  · intro hle
    rw [← magnitudeBits_doubleAt hn] at hle
    exact hhigh.trans (hkeeps.mono hle hx)

namespace Dyadic

theorem abs_decimal (places : ℕ) (d : Dyadic) :
    |d.decimal places| = d.scaled (Nat.pow 10 places) / 10 ^ places := by
  have hnonneg : (0 : ℚ) ≤ d.scaled (Nat.pow 10 places) / 10 ^ places := by positivity
  rw [decimal, withSign]
  split
  · rw [abs_neg, abs_of_nonneg hnonneg]
  · exact abs_of_nonneg hnonneg

/-- What is printed is zero, or at least one unit of the last place. -/
theorem decimal_ne_zero_iff (places : ℕ) (d : Dyadic) :
    d.decimal places ≠ 0 ↔ 1 / 10 ^ places ≤ |d.decimal places| := by
  rw [← abs_ne_zero, abs_decimal, div_le_div_iff_of_pos_right (by positivity), Ne,
    div_eq_zero_iff, or_iff_left (by positivity), Nat.cast_eq_zero, Nat.one_le_cast]
  omega

theorem Canonical.abs_decimal_mono (places : ℕ) {d d' : Dyadic} (h : d.Canonical)
    (h' : d'.Canonical) (hrank : d.rank ≤ d'.rank) : |d.decimal places| ≤ |d'.decimal places| := by
  have hpos : (0 : ℚ) < 10 ^ places := by positivity
  have hle : d.scaled (Nat.pow 10 places) ≤ d'.scaled (Nat.pow 10 places) :=
    (d.roundsTo_scaled_pow places).mono (d'.roundsTo_scaled_pow places)
      (mul_le_mul_of_nonneg_right ((h.magnitude_le_iff h').mpr hrank) hpos.le)
  rw [abs_decimal, abs_decimal]
  exact div_le_div_of_nonneg_right (by exact_mod_cast hle) hpos.le

end Dyadic

theorem ShownAt.le_iff {places n : ℕ} {q : ℚ} (h : ShownAt places n q) {d : Dyadic}
    (hd : d.Canonical) : q ≤ |d.decimal places| ↔ n ≤ d.rank := by
  obtain ⟨hpos, hn, ⟨low, hlow, hless⟩, high, hhigh, hle⟩ := h
  have hrank {m : ℕ} {d' : Dyadic} (hm : m ≤ infinityBits)
      (hd' : Dyadic.ofFloat? (doubleAt m) = some d') : d'.Canonical ∧ d'.rank = m := by
    refine ⟨(Dyadic.ofFloat?_eq_some_iff.mp hd').1, ?_⟩
    rw [← (magnitudeBits_of_ofFloat? hd').1, magnitudeBits_doubleAt hm]
  obtain ⟨hcanonical, hrankLow⟩ := hrank (by omega) hlow
  obtain ⟨hcanonical', hrankHigh⟩ := hrank hn hhigh
  constructor
  · intro hq
    by_contra hlt
    have hmono := hd.abs_decimal_mono places hcanonical (by omega)
    linarith
  · intro hbits
    exact hle.trans (hcanonical'.abs_decimal_mono places hd (by omega))

end Reckon.Number

namespace Reckon.Conversion

open Number Float.Model.UnpackedFloat

/-! ### Thresholds -/

/-- The bound of a threshold. -/
def Threshold.bound : Threshold → Coefficient
  | atLeast bound => bound
  | below bound => bound

/-- The bound is a positive double. -/
def Coefficient.IsPositive (c : Coefficient) : Prop :=
  isNegative c.value = false ∧ 0 < magnitudeBits c.value ∧ magnitudeBits c.value ≤ infinityBits

theorem Coefficient.IsPositive.key_eq {c : Coefficient} (h : c.IsPositive) :
    key c.value = magnitudeBits c.value := by
  rw [key, h.1]
  rfl

theorem isMet_atLeast_iff {bound : Coefficient} (hbound : bound.IsPositive) {x : Float}
    (hx : magnitudeBits x ≤ infinityBits) : (Threshold.atLeast bound).isMet x = true ↔
      unpackedSign x = .positive ∧ magnitudeBits bound.value ≤ magnitudeBits x := by
  have hkey := hbound.key_eq
  obtain ⟨-, hpos, hle⟩ := hbound
  rw [Threshold.isMet, decide_eq_true_eq, le_iff_key_le hle hx, hkey, key_eq]
  cases unpackedSign x with
  | positive =>
    show (magnitudeBits bound.value : ℤ) ≤ magnitudeBits x ↔ _
    rw [Nat.cast_le]
    exact (and_iff_right rfl).symm
  | negative =>
    refine iff_of_false ?_ (by rintro ⟨hfalse, -⟩; cases hfalse)
    show ¬ (magnitudeBits bound.value : ℤ) ≤ -(magnitudeBits x : ℤ)
    omega

theorem isMet_below_iff {bound : Coefficient} (hbound : bound.IsPositive) {x : Float}
    (hx : magnitudeBits x ≤ infinityBits) : (Threshold.below bound).isMet x = true ↔
      1 ≤ magnitudeBits x ∧ ¬ magnitudeBits bound.value ≤ magnitudeBits x := by
  have hkey := hbound.key_eq
  obtain ⟨-, -, hle⟩ := hbound
  obtain ⟨habs, hpositive⟩ := magnitudeBits_abs hx
  have hzero : (x == 0) = true ↔ magnitudeBits x = 0 := by
    have hnone : key 0 = 0 := by decide
    rw [beq_iff_key_eq hx (by decide), hnone, key_eq]
    cases unpackedSign x <;> simp [Sign.apply]
  rw [Threshold.isMet, Bool.and_eq_true, bne, Bool.not_eq_true', ← Bool.not_eq_true, hzero,
    decide_eq_true_eq, lt_iff_key_lt (habs.trans_le hx) hle, hkey, key_eq, hpositive, habs]
  show ¬ magnitudeBits x = 0 ∧ (magnitudeBits x : ℤ) < magnitudeBits bound.value ↔ _
  omega

/-! ### The tie below a bound -/

/-- Half a unit of the last place below a bound. -/
def tie (places : ℕ) (bound : Coefficient) : ℚ :=
  bound.exact - 1 / (2 * 10 ^ places)

/-- The bits of the double that is nearest to the tie. -/
def tieBits (places : ℕ) (bound : Coefficient) : ℕ :=
  nearestBits (tie places bound).num.toNat (tie places bound).den

/-- The double that is nearest to the tie lies below it. -/
def TieIsMissed (places : ℕ) (bound : Coefficient) : Prop :=
  ∃ d ∈ Number.Dyadic.ofFloat? (doubleAt (tieBits places bound)), d.magnitude < tie places bound

instance (places : ℕ) (bound : Coefficient) : Decidable (TieIsMissed places bound) :=
  inferInstanceAs (Decidable (∃ d ∈ _, _))

/-- The number is the double that is nearest to another number, and lies below it. -/
def JustBelow (t : ℚ) (d : Number.Dyadic) : Prop :=
  Rounded t d.rank ∧ d.magnitude < t

/-- The choices of a rule with a bound are told by the doubles next to the tie below it: they are
the same from the double nearest to the tie on, and what is printed reaches the bound there too,
unless that double misses the tie. -/
def Coincide (places : ℕ) (bound : Coefficient) : Prop :=
  (tenPow places).isFinite = true ∧ bound.IsPositive ∧ 0 ≤ tie places bound ∧
    ReachedAt places (tieBits places bound) (magnitudeBits bound.value) ∧
      ShownAt places
        (if TieIsMissed places bound then tieBits places bound + 1 else tieBits places bound)
        bound.exact

/-- What is computed and what is printed become something other than zero at one double. -/
def ZeroCoincide (places : ℕ) : Prop :=
  ReachedAt places (nearestBits 1 (2 * 10 ^ places)) 1 ∧
    ShownAt places (nearestBits 1 (2 * 10 ^ places)) (1 / 10 ^ places)

instance (places : ℕ) (bound : Coefficient) : Decidable (Coincide places bound) :=
  inferInstanceAs (Decidable (_ ∧ (_ ∧ _ ∧ _) ∧ _ ∧ _ ∧ _))

instance (places : ℕ) : Decidable (ZeroCoincide places) :=
  inferInstanceAs (Decidable (_ ∧ _))

theorem rules_coincide :
    ∀ r ∈ rules, ∀ a ∈ r.alternate, Coincide r.places a.threshold.bound := by
  decide +kernel

theorem rules_zeroCoincide : ∀ r ∈ rules, ∀ a ∈ r.alternate,
    a.threshold = .below a.threshold.bound → ZeroCoincide r.places := by
  decide +kernel

section Choice

variable {places : ℕ} {bound : Coefficient} (h : Coincide places bound) {x : Float}
  {d : Number.Dyadic} (hd : Dyadic.ofFloat? x = some d)

include h

theorem Coincide.exact_pos : 0 < bound.exact := by
  have htie := h.2.2.1
  have hhalf : (0 : ℚ) < 1 / (2 * 10 ^ places) := by positivity
  rw [tie] at htie
  linarith

/-- No double is nearer to the tie. -/
theorem Coincide.rounded_tieBits : Rounded (tie places bound) (tieBits places bound) := by
  have hnonneg : 0 ≤ (tie places bound).num := Rat.num_nonneg.mpr h.2.2.1
  have hvalue : ((tie places bound).num.toNat : ℚ) / (tie places bound).den = tie places bound := by
    have hcast : (((tie places bound).num.toNat : ℤ) : ℚ) = (tie places bound).num := by
      rw [Int.toNat_of_nonneg hnonneg]
    rw [← Int.cast_natCast, hcast]
    exact Rat.num_div_den _
  have hrounded := rounded_nearestBits (tie places bound).num.toNat (tie places bound).den_pos
  rwa [hvalue] at hrounded

include hd

theorem Coincide.justBelow_iff : JustBelow (tie places bound) d ↔
    TieIsMissed places bound ∧ d.rank = tieBits places bound := by
  have hcanonical := (Dyadic.ofFloat?_eq_some_iff.mp hd).1
  have hle := h.rounded_tieBits.le_infinityBits
  -- the bits of a double tell its magnitude
  have hat {d' : Number.Dyadic} (hd' : Dyadic.ofFloat? (doubleAt (tieBits places bound)) = some d')
      (hrank : d.rank = tieBits places bound) : d'.magnitude = d.magnitude := by
    have hrank' := (magnitudeBits_of_ofFloat? hd').1
    rw [magnitudeBits_doubleAt hle, ← hrank] at hrank'
    obtain ⟨hmantissa, hexponent⟩ :=
      (Dyadic.ofFloat?_eq_some_iff.mp hd').1.eq_of_rank hcanonical hrank'.symm
    rw [Dyadic.magnitude, Dyadic.magnitude, hmantissa, hexponent]
  constructor
  · rintro ⟨hrounded, hlt⟩
    have hrank := hrounded.unique h.rounded_tieBits
    have hbits := magnitudeBits_doubleAt hle
    obtain ⟨d', hd'⟩ := (eq_infinity_or_finite (hbits.trans_le hle)).resolve_left (by
      have hlt := hcanonical.rank_lt
      omega)
    exact ⟨⟨d', hd', (hat hd' hrank).trans_lt hlt⟩, hrank⟩
  · rintro ⟨⟨d', hd', hlt⟩, hrank⟩
    refine ⟨hrank ▸ h.rounded_tieBits, ?_⟩
    rwa [← hat hd' hrank]

/-- What is printed reaches the bound, told by the bits. -/
theorem Coincide.exact_le_iff : bound.exact ≤ |d.decimal places| ↔
    tieBits places bound ≤ d.rank ∧ ¬ JustBelow (tie places bound) d := by
  have hcanonical := (Dyadic.ofFloat?_eq_some_iff.mp hd).1
  rw [h.2.2.2.2.le_iff hcanonical, h.justBelow_iff hd]
  split
  · next hmissed =>
    rw [and_iff_right hmissed]
    omega
  · next hnot => simp [hnot]

/-- What is computed reaches the bound, told by the bits. -/
theorem Coincide.bound_le_iff : magnitudeBits bound.value ≤ magnitudeBits (roundTo places x) ↔
    tieBits places bound ≤ d.rank := by
  have hle := magnitudeBits_le_of_ofFloat? hd
  rw [h.2.2.2.1.le_iff h.1 hle, (magnitudeBits_of_ofFloat? hd).1]

/-- A large number is given its alternate where its decimal reaches the bound, or where it is the
double that misses the tie. -/
theorem Coincide.atLeast_isMet_iff : (Threshold.atLeast bound).isMet (roundTo places x) = true ↔
    bound.exact ≤ d.decimal places ∨ d.negative = false ∧ JustBelow (tie places bound) d := by
  have hle := magnitudeBits_le_of_ofFloat? hd
  have hkeeps := keepsOrder_roundTo h.1
  have hpos := h.exact_pos
  have hexact := h.exact_le_iff hd
  have hjust := h.justBelow_iff hd
  have hnonneg := abs_nonneg (d.decimal places)
  rw [isMet_atLeast_iff h.2.1 (hkeeps.le hle), hkeeps.sign hle, unpackedSign_eq hd,
    h.bound_le_iff hd]
  cases hsign : d.negative with
  | true =>
    -- a negative number reaches no bound, neither computed nor printed
    have hdecimal : d.decimal places ≤ 0 := by
      rw [Dyadic.decimal, withSign, hsign, if_pos rfl]
      have hquotient : (0 : ℚ) ≤ d.scaled (Nat.pow 10 places) / 10 ^ places := by positivity
      linarith
    refine iff_of_false ?_ ?_
    · rintro ⟨hfalse, -⟩
      cases hfalse
    · rintro (hreach | ⟨hfalse, -⟩)
      · linarith
      · cases hfalse
  | false =>
    have hdecimal : d.decimal places = |d.decimal places| := by
      rw [Dyadic.abs_decimal, Dyadic.decimal, withSign, hsign]
      rfl
    rw [hdecimal, hexact]
    simp only [Bool.false_eq_true, if_false, true_and]
    constructor
    · intro hbits
      by_cases hj : JustBelow (tie places bound) d
      · exact Or.inr hj
      · exact Or.inl ⟨hbits, hj⟩
    · rintro (⟨hbits, -⟩ | hj)
      · exact hbits
      · exact (hjust.mp hj).2.ge

/-- A small number is given its alternate where its decimal is not zero and below the bound, unless
it is the double that misses the tie. -/
theorem Coincide.below_isMet_iff (hzero : ZeroCoincide places) :
    (Threshold.below bound).isMet (roundTo places x) = true ↔
      d.decimal places ≠ 0 ∧ |d.decimal places| < bound.exact ∧
        ¬ JustBelow (tie places bound) d := by
  have hle := magnitudeBits_le_of_ofFloat? hd
  have hkeeps := keepsOrder_roundTo h.1
  have hcanonical := (Dyadic.ofFloat?_eq_some_iff.mp hd).1
  have hexact := h.exact_le_iff hd
  have hjust := h.justBelow_iff hd
  rw [isMet_below_iff h.2.1 (hkeeps.le hle), h.bound_le_iff hd, hzero.1.le_iff h.1 hle,
    (magnitudeBits_of_ofFloat? hd).1, Dyadic.decimal_ne_zero_iff, hzero.2.le_iff hcanonical,
    ← not_le, hexact]
  by_cases hj : JustBelow (tie places bound) d
  · have hbits := (hjust.mp hj).2
    simp [hj, hbits]
  · simp [hj]

end Choice

/-! ### The rules -/

theorem Rule.isSome_alternateText? {r : Rule} {a : Alternate} (ha : r.alternate = some a)
    (x : Float) :
    (r.alternateText? x).isSome = a.threshold.isMet (roundTo r.places x) := by
  simp only [alternateText?, ha]
  cases a.threshold.isMet (roundTo r.places x) <;> rfl

/-- An alternate is offered where the number that is printed meets the threshold. The one exception
is the double nearest to the tie below the bound, if it lies below that tie: it is printed as less
than the bound, and yet taken to reach it. -/
theorem alternate_agrees {r : Rule} (hr : r ∈ rules) {a : Alternate} (ha : r.alternate = some a)
    {amount : Float} (hvalue : (r.value amount).isFinite = true) : ∃ d number q,
      Dyadic.ofFloat? (r.value amount) = some d ∧
      (r.apply amount).text = String.ofList number ++ " " ++ r.label ∧
      readDecimal? number = some q ∧
      (q ≠ 0 → ((r.apply amount).alternate.isSome ↔ match a.threshold with
        | .atLeast bound =>
          bound.exact ≤ q ∨ d.negative = false ∧ JustBelow (tie r.places bound) d
        | .below bound => |q| < bound.exact ∧ ¬ JustBelow (tie r.places bound) d)) := by
  obtain ⟨d, hd⟩ := Dyadic.isFinite_iff.mp hvalue
  refine ⟨d, _, _, hd, rfl, readDecimal?_fixed hd r.places, fun hne => ?_⟩
  have hcoincide := rules_coincide r hr a ha
  have hzero := rules_zeroCoincide r hr a ha
  show (r.alternateText? (r.value amount)).isSome = true ↔ _
  rw [Rule.isSome_alternateText? ha]
  cases hthreshold : a.threshold with
  | atLeast bound =>
    rw [hthreshold] at hcoincide
    exact hcoincide.atLeast_isMet_iff hd
  | below bound =>
    rw [hthreshold] at hcoincide hzero
    exact (Coincide.below_isMet_iff hcoincide hd (hzero rfl)).trans (and_iff_right hne)

/-- Half a pound is less than a kilogram. -/
theorem alternate_agrees_half : ∃ r ∈ rules, ∃ a, r.alternate = some a ∧ r.source = .pound ∧
    r.target = .kilogram ∧ a.threshold = .below 1 ∧ (r.value 0.5).isFinite = true ∧
    ∃ d number q, Dyadic.ofFloat? (r.value 0.5) = some d ∧
      (r.apply 0.5).text = String.ofList number ++ " " ++ r.label ∧ readDecimal? number = some q ∧
      (q ≠ 0 → ((r.apply 0.5).alternate.isSome ↔
        |q| < (1 : Coefficient).exact ∧ ¬ JustBelow (tie r.places 1) d)) := by
  have hmem : ⟨.pound, .kilogram, [.mul 0.453592], "kg", 2, some ⟨.below 1, 1000, "g", 0⟩⟩ ∈
      rules := by decide
  have hfinite : (Rule.value ⟨.pound, .kilogram, [.mul 0.453592], "kg", 2,
      some ⟨.below 1, 1000, "g", 0⟩⟩ 0.5).isFinite = true := by decide +kernel
  exact ⟨_, hmem, _, rfl, rfl, rfl, rfl, hfinite, alternate_agrees hmem rfl hfinite⟩

/-- The double nearest to 0.995 lies below it: it is printed as 0.99 and not taken as less than one.
-/
theorem alternate_disagrees : ∃ r a, rule? .pound .kilogram = some r ∧ r.alternate = some a ∧
    a.threshold = .below 1 ∧ (2.1936012980828585 : Float).isFinite = true ∧
    (r.value 2.1936012980828585).isFinite = true ∧
    (r.apply 2.1936012980828585).text = "0.99" ++ " " ++ r.label ∧
    readDecimal? "0.99".toList = some (99 / 100) ∧ |(99 / 100 : ℚ)| < (1 : Coefficient).exact ∧
    (r.apply 2.1936012980828585).alternate = none := by
  refine ⟨_, _, rfl, rfl, rfl, ?_, ?_, ?_, ?_, ?_, ?_⟩ <;> decide +kernel

/-- A number printed below the bound gets its friendlier unit, unless it is printed as zero or is
the double that misses the tie. Where the bound is one unit of the last place, that leaves none. -/
theorem alternate_below_iff {r : Rule} (hr : r ∈ rules) {a : Alternate} (ha : r.alternate = some a)
    {bound : Coefficient} (hbound : a.threshold = .below bound) {amount : Float}
    (hvalue : (r.value amount).isFinite = true) : ∃ d number q,
      Dyadic.ofFloat? (r.value amount) = some d ∧
      (r.apply amount).text = String.ofList number ++ " " ++ r.label ∧
      readDecimal? number = some q ∧
      ((r.apply amount).alternate.isSome ↔
        q ≠ 0 ∧ |q| < bound.exact ∧ ¬ JustBelow (tie r.places bound) d) ∧
      (bound.exact ≤ 1 / 10 ^ r.places → (r.apply amount).alternate = none) := by
  obtain ⟨d, hd⟩ := Dyadic.isFinite_iff.mp hvalue
  have hcoincide := rules_coincide r hr a ha
  have hzero := rules_zeroCoincide r hr a ha
  rw [hbound] at hcoincide hzero
  have hiff : (r.apply amount).alternate.isSome = true ↔ d.decimal r.places ≠ 0 ∧
      |d.decimal r.places| < bound.exact ∧ ¬ JustBelow (tie r.places bound) d := by
    show (r.alternateText? (r.value amount)).isSome = true ↔ _
    rw [Rule.isSome_alternateText? ha, hbound]
    exact hcoincide.below_isMet_iff hd (hzero rfl)
  refine ⟨d, _, _, hd, rfl, readDecimal?_fixed hd r.places, hiff, fun hunit => ?_⟩
  rw [← Option.not_isSome_iff_eq_none, hiff]
  -- what is not printed as zero has at least one unit of the last place
  rintro ⟨hne, hlt, -⟩
  have hle := (Number.Dyadic.decimal_ne_zero_iff r.places d).mp hne
  linarith

/-- A million kilometers are less than a thousandth of a light year. -/
theorem alternate_below_iff_lightYear : ∃ r ∈ rules, ∃ a, r.alternate = some a ∧
    r.source = .kilometer ∧ r.target = .lightYear ∧ a.threshold = .below 0.001 ∧
    (r.value 1e6).isFinite = true ∧ ∃ d number q, Dyadic.ofFloat? (r.value 1e6) = some d ∧
      (r.apply 1e6).text = String.ofList number ++ " " ++ r.label ∧ readDecimal? number = some q ∧
      ((r.apply 1e6).alternate.isSome ↔
        q ≠ 0 ∧ |q| < (0.001 : Coefficient).exact ∧ ¬ JustBelow (tie r.places 0.001) d) ∧
      ((0.001 : Coefficient).exact ≤ 1 / 10 ^ r.places → (r.apply 1e6).alternate = none) := by
  have hmem : ⟨.kilometer, .lightYear, [.div kmPerLy], "ly", 3,
      some ⟨.below 0.001, .quotient kmPerLy kmPerAu, "AU", 3⟩⟩ ∈ rules := by decide
  have hfinite : (Rule.value ⟨.kilometer, .lightYear, [.div kmPerLy], "ly", 3,
      some ⟨.below 0.001, .quotient kmPerLy kmPerAu, "AU", 3⟩⟩ 1e6).isFinite = true := by
    decide +kernel
  exact ⟨_, hmem, _, rfl, rfl, rfl, rfl, hfinite, alternate_below_iff hmem rfl rfl hfinite⟩

/-- They are printed as zero light years, with no alternate. -/
theorem alternate_none_lightYear : ∃ r a, rule? .kilometer .lightYear = some r ∧
    r.alternate = some a ∧ a.threshold = .below 0.001 ∧ (1e6 : Float).isFinite = true ∧
    (r.value 1e6).isFinite = true ∧ (r.value 1e6 != 0) = true ∧
    (r.apply 1e6).text = "0.000" ++ " " ++ r.label ∧ readDecimal? "0.000".toList = some 0 ∧
    |(0 : ℚ)| < (0.001 : Coefficient).exact ∧ (r.apply 1e6).alternate = none := by
  refine ⟨_, _, rfl, rfl, rfl, ?_, ?_, ?_, ?_, ?_, ?_, ?_⟩ <;> decide +kernel

end Reckon.Conversion
