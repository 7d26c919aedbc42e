/-
Displayed numbers are read back.

What is displayed is a formula: a literal, perhaps behind a minus sign. Its value is the double
nearest to the decimal that is displayed, and so it is at least as near to that decimal as the number
itself. Hence it is displayed as the same decimal, a tie included, and it is the number itself if the
decimal is exact. Nothing depends on how far apart the doubles are.

* `evaluate_signed` : the value of a literal behind a minus sign or alone.
* `Dyadic.shown_eq_of_near` : numbers that are as near to a decimal are displayed as it.
* `exists_evaluate_display` : the value of a number that has been displayed.
* `evaluate_display` : it is displayed in the same way again, and whole numbers are kept.
-/
import Reckon.Formula.Evaluate
import Reckon.Proofs.DisplayText

namespace Reckon.Formula

open Number

/-! ### Literals as formulas -/

theorem scan_signed (negative : Bool) (l : Literal) : scan (signed negative l.chars) =
    .ok (if negative then [.negate, .number l.value] else [.number l.value]) := by
  cases negative with
  | true =>
    have hplaced : Placed none (tokens [⟨false, .negate⟩, ⟨false, .number l⟩]) := ⟨rfl, rfl, rfl⟩
    simpa [spell, tokens, Item.chars, space, Lexeme.chars, Lexeme.token, signed] using
      scan_spell hplaced
  | false =>
    have hplaced : Placed none (tokens [⟨false, .number l⟩]) := ⟨rfl, rfl⟩
    simpa [spell, tokens, Item.chars, space, Lexeme.chars, Lexeme.token, signed] using
      scan_spell hplaced

theorem evaluate_signed (negative : Bool) (l : Literal) : evaluate (signed negative l.chars) =
    requireFinite (if negative then -l.value else l.value) := by
  rw [evaluate, scan_signed]
  cases negative <;> rfl

end Reckon.Formula

namespace Reckon.Number

/-! ### The decimal that is displayed -/

theorem Dyadic.roundsTo_shown (d : Dyadic) :
    RoundsTo (d.magnitude * 10 ^ displayPlaces) d.shown := by
  have hround := d.roundsTo_scaled (Nat.pow 10 displayPlaces)
  rwa [Nat.pow_eq, Nat.cast_pow, Nat.cast_ofNat] at hround

/-- A number that is as near to the decimal of another is displayed as the same decimal. -/
theorem Dyadic.shown_eq_of_near {d d' : Dyadic}
    (h : |d'.magnitude - d.shown / 10 ^ displayPlaces| ≤
      |d.magnitude - d.shown / 10 ^ displayPlaces|) : d'.shown = d.shown := by
  have hpos : (0 : ℚ) < 10 ^ displayPlaces := by positivity
  have hunits (x : ℚ) : |x * 10 ^ displayPlaces - d.shown| =
      |x - d.shown / 10 ^ displayPlaces| * 10 ^ displayPlaces := by
    rw [← abs_of_pos hpos, ← abs_mul, abs_of_pos hpos, sub_mul, div_mul_cancel₀ _ hpos.ne']
  refine d'.roundsTo_shown.unique (d.roundsTo_shown.of_le ?_)
  rw [hunits, hunits]
  exact mul_le_mul_of_nonneg_right h hpos.le

/-- The decimal of a double is not beyond the largest double. -/
theorem Dyadic.Canonical.shown_le {d : Dyadic} (hd : d.Canonical) :
    (d.shown / 10 ^ displayPlaces : ℚ) ≤ largest := by
  have hpos : (0 : ℚ) < 10 ^ displayPlaces := by positivity
  rw [div_le_iff₀ hpos]
  by_cases hwhole : d.isWhole = true
  · obtain ⟨n, hn⟩ := exists_natCast_of_isWhole hwhole
    have hshown : (d.shown : ℚ) = d.magnitude * 10 ^ displayPlaces := by
      rw [shown, scaled_of_magnitude hn, hn, Nat.pow_eq]
      push_cast
      rfl
    rw [hshown]
    exact mul_le_mul_of_nonneg_right hd.magnitude_le hpos.le
  · -- a number with a fraction is far from the largest double
    have hexponent : d.exponent ≤ 0 := by
      rw [isWhole, Bool.or_eq_true, decide_eq_true_eq, not_or] at hwhole
      exact (not_le.mp hwhole.1).le
    have hmantissa : (d.mantissa : ℚ) ≤ 2 ^ 53 := by exact_mod_cast hd.mantissa_lt.le
    have hmagnitude : d.magnitude ≤ 2 ^ 53 :=
      calc d.magnitude ≤ 2 ^ 53 * 2 ^ (0 : ℤ) :=
            mul_le_mul hmantissa (zpow_le_zpow_right₀ (by norm_num) hexponent)
              (two_zpow_pos _).le (by norm_num)
        _ = 2 ^ 53 := by rw [zpow_zero, mul_one]
    have hshown : d.shown ≤ 2 ^ 53 * 10 ^ displayPlaces := by
      refine d.roundsTo_shown.mono (RoundsTo.natCast _) ?_
      push_cast
      exact mul_le_mul_of_nonneg_right hmagnitude hpos.le
    have hlargest : (2 : ℚ) ^ 53 ≤ largest :=
      calc (2 : ℚ) ^ 53 ≤ (2 ^ 53 - 1) * 2 ^ (1 : ℤ) := by norm_num
        _ ≤ largest :=
          mul_le_mul_of_nonneg_left (zpow_le_zpow_right₀ (by norm_num) (by norm_num))
            (by norm_num)
    calc (d.shown : ℚ) ≤ 2 ^ 53 * 10 ^ displayPlaces := by exact_mod_cast hshown
      _ ≤ largest * 10 ^ displayPlaces := mul_le_mul_of_nonneg_right hlargest hpos.le

/-! ### Reading back -/

/-- A positive double behind a minus sign or alone. -/
theorem ofFloat?_signed {x : Float} {d : Dyadic} (h : Dyadic.ofFloat? x = some d)
    (hd : d.negative = false) (negative : Bool) :
    Dyadic.ofFloat? (if negative then -x else x) = some { d with negative := negative } := by
  obtain ⟨_, m, e⟩ := d
  subst hd
  cases negative with
  | true => exact Dyadic.ofFloat?_neg h
  | false => exact h

/-- A number that has been displayed has a value, and no double is nearer to the decimal. -/
theorem exists_evaluate_display {x : Float} {d : Dyadic} (h : Dyadic.ofFloat? x = some d) :
    ∃ y d', Formula.evaluate (display x) = .ok y ∧ Dyadic.ofFloat? y = some d' ∧
      d'.negative = (d.negative && d.shown != 0) ∧
      ∀ d'' : Dyadic, d''.Canonical → |d'.magnitude - d.shown / 10 ^ displayPlaces| ≤
        |d''.magnitude - d.shown / 10 ^ displayPlaces| := by
  have hcanonical := (Dyadic.ofFloat?_eq_some_iff.mp h).1
  have hvalue := decimalLiteral_value (by decide : 0 < displayPlaces) d.shown
  rw [display_eq h, Formula.evaluate_signed]
  generalize decimalLiteral displayPlaces d.shown = l at hvalue
  have hden : 0 < Nat.pow 10 l.fraction.length := Nat.pow_pos (by decide)
  obtain ⟨d', hd', hpositive, hnearest⟩ := exists_nearest false
    (digitsValue (l.whole ++ l.fraction)) hden (hvalue.trans_le hcanonical.shown_le)
  rw [hvalue] at hnearest
  have hy := ofFloat?_signed hd' hpositive (d.negative && d.shown != 0)
  refine ⟨_, _, if_pos ?_, hy, rfl, hnearest⟩
  exact Dyadic.isFinite_iff.mpr ⟨_, hy⟩

/-! ### Whole numbers -/

theorem exists_natCast_of_wholeValue? {x : Float} {d : Dyadic} (hd : Dyadic.ofFloat? x = some d)
    (h : (wholeValue? x).isSome) : ∃ n : ℕ, d.magnitude = n := by
  simp only [wholeValue?, hd] at h
  split at h
  · next hwhole => exact Dyadic.exists_natCast_of_isWhole hwhole
  · cases h

theorem ofFloat?_zero : Dyadic.ofFloat? 0.0 = some ⟨false, 0, -1074⟩ := by
  decide

theorem ofFloat?_neg_zero : Dyadic.ofFloat? (-0.0) = some ⟨true, 0, -1074⟩ :=
  Dyadic.ofFloat?_neg ofFloat?_zero

/-- A double of magnitude zero is one of the two zeros. -/
theorem eq_zero_of_magnitude {x : Float} {d : Dyadic} (hd : Dyadic.ofFloat? x = some d)
    (hzero : d.magnitude = 0) : x = if d.negative then -0.0 else 0.0 := by
  have hcanonical := (Dyadic.ofFloat?_eq_some_iff.mp hd).1
  have hvalue (negative : Bool) : d.magnitude = (⟨negative, 0, -1074⟩ : Dyadic).magnitude := by
    rw [hzero, eq_comm, Dyadic.magnitude_eq_zero_iff]
  cases hsign : d.negative with
  | true =>
    rw [hcanonical.eq_of_magnitude (Dyadic.ofFloat?_eq_some_iff.mp ofFloat?_neg_zero).1 hsign
      (hvalue true)] at hd
    exact Dyadic.eq_of_ofFloat? hd ofFloat?_neg_zero
  | false =>
    rw [hcanonical.eq_of_magnitude (Dyadic.ofFloat?_eq_some_iff.mp ofFloat?_zero).1 hsign
      (hvalue false)] at hd
    exact Dyadic.eq_of_ofFloat? hd ofFloat?_zero

/-- Of a number that is displayed exactly, the sign is read back unless the number is zero. -/
theorem eq_of_same_magnitude {x y : Float} {d d' : Dyadic} (hd : Dyadic.ofFloat? x = some d)
    (hd' : Dyadic.ofFloat? y = some d') (hexact : (d.shown / 10 ^ displayPlaces : ℚ) = d.magnitude)
    (hsame : d'.magnitude = d.magnitude) (hnegative : d'.negative = (d.negative && d.shown != 0)) :
    y = if x = -0.0 then 0.0 else x := by
  have hcanonical := (Dyadic.ofFloat?_eq_some_iff.mp hd).1
  have hcanonical' := (Dyadic.ofFloat?_eq_some_iff.mp hd').1
  have hshown : d.shown = 0 ↔ d.magnitude = 0 := by
    rw [← hexact, div_eq_zero_iff, or_iff_left (by positivity), Nat.cast_eq_zero]
  by_cases hzero : d.magnitude = 0
  · rw [eq_zero_of_magnitude hd' (hsame.trans hzero), eq_zero_of_magnitude hd hzero, hnegative,
      hshown.mpr hzero, bne_self_eq_false, Bool.and_false]
    cases d.negative with
    | true => exact (if_pos rfl).symm
    | false => exact (ite_self _).symm
  · have hsign : d'.negative = d.negative := by
      rw [hnegative, bne_iff_ne.mpr (mt hshown.mp hzero), Bool.and_true]
    have hne : x ≠ -0.0 := by
      rintro rfl
      rw [ofFloat?_neg_zero, Option.some.injEq] at hd
      exact hzero (by rw [← hd, Dyadic.magnitude_eq_zero_iff])
    rw [if_neg hne]
    rw [hcanonical'.eq_of_magnitude hcanonical hsign hsame] at hd'
    exact Dyadic.eq_of_ofFloat? hd' hd

/-- Every finite number is displayed as a formula, whose value is displayed in the same way. The
value of a whole number is the number itself, and zero where it is a zero with a minus sign. -/
theorem evaluate_display {x : Float} (hx : x.isFinite = true) :
    ∃ y, Formula.evaluate (display x) = .ok y ∧ display y = display x ∧
      ((wholeValue? x).isSome → y = if x = -0.0 then 0.0 else x) := by
  obtain ⟨d, hd⟩ := Dyadic.isFinite_iff.mp hx
  obtain ⟨y, d', hy, hd', hnegative, hnearest⟩ := exists_evaluate_display hd
  have hcanonical := (Dyadic.ofFloat?_eq_some_iff.mp hd).1
  have hshown : d'.shown = d.shown := Dyadic.shown_eq_of_near (hnearest d hcanonical)
  refine ⟨y, hy, ?_, fun hwhole => ?_⟩
  · rw [display_eq hd', display_eq hd, hnegative, hshown, Bool.and_assoc, Bool.and_self]
  · obtain ⟨n, hn⟩ := exists_natCast_of_wholeValue? hd hwhole
    have hunits : d.shown = n * 10 ^ displayPlaces := Dyadic.scaled_of_magnitude hn _
    -- the decimal is the number itself, so no double but the number is as near to it
    have hexact : (d.shown / 10 ^ displayPlaces : ℚ) = d.magnitude := by
      rw [hunits, hn, Nat.cast_mul, Nat.cast_pow, Nat.cast_ofNat]
      exact mul_div_cancel_right₀ _ (by positivity)
    have hsame : d'.magnitude = d.magnitude := by
      have hnear := hnearest d hcanonical
      rwa [hexact, sub_self, abs_zero, abs_nonpos_iff, sub_eq_zero] at hnear
    exact eq_of_same_magnitude hd hd' hexact hsame hnegative

/-- A number halfway between two decimals of ten places, and zero with a minus sign. -/
theorem evaluate_display_tie :
    ((0.00048828125 : Float).isFinite = true ∧ ∃ y,
      Formula.evaluate "0.0004882812".toList = .ok y ∧ display y = "0.0004882812".toList) ∧
    (-0.0 : Float).isFinite = true ∧ Formula.evaluate (display (-0.0)) = .ok 0.0 := by
  have htie : (0.00048828125 : Float).isFinite = true := by decide
  have hzero : (-0.0 : Float).isFinite = true := Dyadic.isFinite_iff.mpr ⟨_, ofFloat?_neg_zero⟩
  have hdisplay : display 0.00048828125 = "0.0004882812".toList := by decide +kernel
  have hwhole : (wholeValue? (-0.0)).isSome := by decide +kernel
  refine ⟨⟨htie, ?_⟩, hzero, ?_⟩
  · obtain ⟨y, hy, hagain, -⟩ := evaluate_display htie
    rw [hdisplay] at hy hagain
    exact ⟨y, hy, hagain⟩
  · obtain ⟨y, hy, -, hvalue⟩ := evaluate_display hzero
    rw [hy, hvalue hwhole, if_pos rfl]

end Reckon.Number
