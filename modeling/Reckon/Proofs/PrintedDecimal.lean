/-
Printed decimals.

What is printed is read here as the decimal number that it denotes: digits, with a point and more
digits behind it or without, and a minus sign in front or none. A finite number is printed as its
exact value rounded to the places that are shown, to the even one of two equally near decimals.

* `readDecimal?` : the number that a decimal text denotes.
* `Dyadic.decimal` : an exact value rounded to decimal places.
* `Dyadic.decimal_mono` : rounding keeps order.
* `readDecimal?_fixed`, `readDecimal?_display` : what is printed denotes the rounded value.
* `display_canonical` : the answer to a calculation has no digit that could be left out, and denotes
  the nearest decimal of ten places.
-/
import Reckon.Proofs.DisplayRoundTrip
import Reckon.Proofs.DoubleOrder

namespace Reckon.Number

/-! ### Reading a decimal -/

/-- The number that digits denote, with a point and more digits behind it or without. -/
def readUnsigned? (s : List Char) : Option ℚ :=
  let whole := s.takeWhile Char.isDigit
  match s.dropWhile Char.isDigit with
  | [] => if whole = [] then none else some (digitsValue whole : ℚ)
  | c :: fraction =>
    if c = '.' ∧ whole ≠ [] ∧ fraction ≠ [] ∧ fraction.all Char.isDigit then
      some (digitsValue (whole ++ fraction) / 10 ^ fraction.length : ℚ)
    else none

/-- The number that a decimal text denotes. -/
def readDecimal? : List Char → Option ℚ
  | '-' :: s => (readUnsigned? s).map (-·)
  | s => readUnsigned? s

/-- A number of the given sign. -/
def withSign (negative : Bool) (r : ℚ) : ℚ :=
  if negative then -r else r

theorem readUnsigned?_chars (l : Formula.Literal) : readUnsigned? l.chars =
    some (digitsValue (l.whole ++ l.fraction) / 10 ^ l.fraction.length : ℚ) := by
  have hdigits (c : Char) (hc : c ∈ l.whole ++ l.fraction) := l.isDigit_of_mem c hc
  have hwhole (c : Char) (hc : c ∈ l.whole) := hdigits c (List.mem_append_left _ hc)
  have hfraction (c : Char) (hc : c ∈ l.fraction) := hdigits c (List.mem_append_right _ hc)
  cases hf : l.fraction with
  | nil =>
    have hchars : l.chars = l.whole := by simp [Formula.Literal.chars, hf]
    have htake : l.whole.takeWhile Char.isDigit = l.whole :=
      List.takeWhile_eq_self_iff.mpr hwhole
    have hdrop : l.whole.dropWhile Char.isDigit = [] :=
      List.dropWhile_eq_nil_iff.mpr hwhole
    rw [hchars]
    simp [readUnsigned?, htake, hdrop, l.whole_ne_nil]
  | cons c f =>
    have hchars : l.chars = l.whole ++ '.' :: l.fraction := by simp [Formula.Literal.chars, hf]
    have htake : (l.whole ++ '.' :: l.fraction).takeWhile Char.isDigit = l.whole := by
      rw [List.takeWhile_append_of_pos hwhole, List.takeWhile_cons_of_neg (by decide),
        List.append_nil]
    have hdrop : (l.whole ++ '.' :: l.fraction).dropWhile Char.isDigit = '.' :: l.fraction := by
      rw [List.dropWhile_append_of_pos hwhole, List.dropWhile_cons_of_neg (by decide)]
    have hall : l.fraction.all Char.isDigit = true := List.all_eq_true.mpr hfraction
    have hne : l.fraction ≠ [] := by simp [hf]
    rw [hchars, readUnsigned?]
    simp only [htake, hdrop]
    rw [if_pos ⟨trivial, l.whole_ne_nil, hne, hall⟩, hf]

theorem readDecimal?_signed (negative : Bool) (l : Formula.Literal) :
    readDecimal? (signed negative l.chars) = some (withSign negative
      (digitsValue (l.whole ++ l.fraction) / 10 ^ l.fraction.length)) := by
  cases negative with
  | true =>
    show (readUnsigned? l.chars).map (-·) = _
    rw [readUnsigned?_chars]
    rfl
  | false =>
    have hread : readDecimal? l.chars = readUnsigned? l.chars := by
      obtain ⟨c, s, hs⟩ := List.exists_cons_of_ne_nil l.whole_ne_nil
      have hdigit : c.isDigit = true := l.isDigit_of_mem c (by simp [hs])
      have hne : c ≠ '-' := by
        rintro rfl
        exact absurd hdigit (by decide)
      rw [Formula.Literal.chars, hs, List.cons_append, readDecimal?]
      intro s' hminus
      exact hne (List.cons_eq_cons.mp hminus).1
    exact hread.trans (readUnsigned?_chars l)

/-! ### Rounding an exact value -/

namespace Dyadic

/-- The exact value rounded to decimal places. -/
def decimal (places : ℕ) (d : Dyadic) : ℚ :=
  withSign d.negative (d.scaled (Nat.pow 10 places) / 10 ^ places)

theorem roundsTo_scaled_pow (places : ℕ) (d : Dyadic) :
    RoundsTo (d.magnitude * 10 ^ places) (d.scaled (Nat.pow 10 places)) := by
  have hround := d.roundsTo_scaled (Nat.pow 10 places)
  rwa [Nat.pow_eq, Nat.cast_pow, Nat.cast_ofNat] at hround

/-- Rounding to decimal places keeps order. -/
theorem decimal_mono (places : ℕ) {d d' : Dyadic} (h : d.value ≤ d'.value) :
    d.decimal places ≤ d'.decimal places := by
  have hpos : (0 : ℚ) < 10 ^ places := by positivity
  have hround := d.roundsTo_scaled_pow places
  have hround' := d'.roundsTo_scaled_pow places
  have hnonneg := d.magnitude_nonneg
  have hnonneg' := d'.magnitude_nonneg
  rw [decimal, decimal, withSign, withSign]
  rw [value, value] at h
  generalize d.scaled (Nat.pow 10 places) = n at *
  generalize d'.scaled (Nat.pow 10 places) = n' at *
  have hn : (0 : ℚ) ≤ n / 10 ^ places := by positivity
  have hn' : (0 : ℚ) ≤ n' / 10 ^ places := by positivity
  cases hsign : d.negative <;> cases hsign' : d'.negative <;>
    simp only [hsign, hsign', if_true, if_false, Bool.false_eq_true] at h ⊢
  · have hle : n ≤ n' := hround.mono hround' (mul_le_mul_of_nonneg_right h hpos.le)
    exact div_le_div_of_nonneg_right (by exact_mod_cast hle) hpos.le
  · -- both are zeros
    have hzero : n = 0 := hround.eq_of_eq_natCast (by
      rw [le_antisymm (by linarith : d.magnitude ≤ 0) hnonneg, zero_mul, Nat.cast_zero])
    have hzero' : n' = 0 := hround'.eq_of_eq_natCast (by
      rw [le_antisymm (by linarith : d'.magnitude ≤ 0) hnonneg', zero_mul, Nat.cast_zero])
    rw [hzero, hzero', Nat.cast_zero, zero_div, neg_zero]
  · linarith
  · have hle : n' ≤ n := hround'.mono hround (mul_le_mul_of_nonneg_right (by linarith) hpos.le)
    have hquotient := div_le_div_of_nonneg_right (by exact_mod_cast hle : (n' : ℚ) ≤ n) hpos.le
    linarith

/-- The rounded value is a multiple of the last place, none is nearer, and of two equally near ones
it is the even one. -/
theorem exists_decimal (places : ℕ) (d : Dyadic) : ∃ n : ℤ, d.decimal places = n / 10 ^ places ∧
    |d.value * 10 ^ places - n| ≤ 1 / 2 ∧ (|d.value * 10 ^ places - n| = 1 / 2 → Even n) := by
  have hround := d.roundsTo_scaled_pow places
  rw [decimal, withSign, value]
  generalize d.scaled (Nat.pow 10 places) = n at *
  cases d.negative <;> simp only [if_true, if_false, Bool.false_eq_true]
  · exact ⟨n, rfl, hround.near, fun htie => (Int.even_coe_nat n).mpr (hround.even htie)⟩
  · have hopposite : -d.magnitude * 10 ^ places - ((-n : ℤ) : ℚ) =
        -(d.magnitude * 10 ^ places - n) := by
      push_cast
      ring
    refine ⟨-n, by push_cast; rw [neg_div], ?_⟩
    rw [hopposite, abs_neg]
    exact ⟨hround.near, fun htie => ((Int.even_coe_nat n).mpr (hround.even htie)).neg⟩

/-- Whole numbers are not changed. -/
theorem decimal_eq_value (places : ℕ) {d : Dyadic} {z : ℤ} (h : d.value = z) :
    d.decimal places = d.value := by
  have hmagnitude : d.magnitude = z.natAbs := by
    have habs : |d.value| = d.magnitude := by
      rw [value]
      split
      · rw [abs_neg, abs_of_nonneg d.magnitude_nonneg]
      · exact abs_of_nonneg d.magnitude_nonneg
    rw [← habs, h, Nat.cast_natAbs, Int.cast_abs]
  rw [decimal, scaled_of_magnitude hmagnitude, Nat.pow_eq, Nat.cast_mul, Nat.cast_pow,
    Nat.cast_ofNat, mul_div_cancel_right₀ _ (by positivity), ← hmagnitude]
  rfl

end Dyadic

/-! ### What is printed -/

/-- A count of units of the last place is printed as a literal that denotes it. -/
theorem exists_literal_withPlaces (places n : ℕ) : ∃ l : Formula.Literal,
    l.chars = withPlaces places n ∧ digitsValue (l.whole ++ l.fraction) = n ∧
      l.fraction.length = places := by
  rcases Nat.eq_zero_or_pos places with rfl | hpos
  · refine ⟨⟨⟨digits n, []⟩, Nat.toDigits_ne_nil, fun c hc => ?_⟩, List.append_nil _, ?_, rfl⟩
    · exact isDigit_of_mem_digits (by simpa using hc)
    · rw [List.append_nil, digitsValue_digits]
  · have hlength := length_paddedDigits hpos (Nat.mod_lt n (Nat.pow_pos (n := places) (by decide)))
    have hne : paddedDigits places (n % 10 ^ places) ≠ [] := by
      intro hnil
      rw [hnil, List.length_nil] at hlength
      omega
    refine ⟨⟨⟨digits (n / 10 ^ places), paddedDigits places (n % 10 ^ places)⟩,
      Nat.toDigits_ne_nil, fun c hc => ?_⟩, ?_, ?_, hlength⟩
    · rcases List.mem_append.mp hc with hc | hc
      · exact isDigit_of_mem_digits hc
      · exact isDigit_of_mem_paddedDigits hc
    · rw [Formula.Literal.chars, withPlaces, if_neg hpos.ne', if_neg (by simpa using hne)]
      rfl
    · rw [digitsValue_append, hlength, digitsValue_digits, digitsValue_paddedDigits]
      exact Nat.div_add_mod n (10 ^ places)

/-- A number printed with a fixed count of places. -/
theorem readDecimal?_fixed {x : Float} {d : Dyadic} (h : Dyadic.ofFloat? x = some d)
    (places : ℕ) : readDecimal? (fixed places x) = some (d.decimal places) := by
  obtain ⟨l, hchars, hvalue, hlength⟩ :=
    exists_literal_withPlaces places (d.scaled (Nat.pow 10 places))
  simp only [fixed, h]
  rw [← hchars, readDecimal?_signed, hvalue, hlength]
  rfl

/-- A number printed as an answer. The sign is left out of zero, which has none. -/
theorem readDecimal?_display {x : Float} {d : Dyadic} (h : Dyadic.ofFloat? x = some d) :
    readDecimal? (display x) = some (d.decimal displayPlaces) := by
  have hvalue := decimalLiteral_value (by decide : 0 < displayPlaces) d.shown
  rw [Nat.pow_eq, Nat.cast_pow, Nat.cast_ofNat] at hvalue
  rw [display_eq h, readDecimal?_signed, hvalue, Dyadic.decimal, ← Dyadic.shown]
  by_cases hzero : d.shown = 0
  · rw [hzero, Nat.cast_zero, zero_div, withSign, withSign, neg_zero, ite_self, ite_self]
  · rw [bne_iff_ne.mpr hzero, Bool.and_true]

/-! ### Canonical decimals -/

/-- The text is a decimal without digits that could be left out: digits, of which the first is no
zero unless it is the only one, and at most so many more behind a point, of which the last is no
zero. -/
def IsCanonicalDecimal (places : ℕ) (s : List Char) : Prop :=
  ∃ (negative : Bool) (l : Formula.Literal), s = signed negative l.chars ∧
    (l.whole.head? = some '0' → l.whole = ['0']) ∧
    l.fraction.length ≤ places ∧ l.fraction.getLast? ≠ some '0'

theorem digits_head? (n : ℕ) (h : (digits n).head? = some '0') : digits n = ['0'] := by
  induction n using Nat.strong_induction_on with
  | _ n ih =>
    rcases Nat.lt_or_ge n 10 with hlt | hge
    · rw [digits, Nat.toDigits_of_lt_base hlt] at h ⊢
      rw [List.head?_cons, Option.some.injEq] at h
      rw [h]
    · -- the first digit is that of the number without its last digit, which is not zero
      have hsplit : digits n = digits (n / 10) ++ [(n % 10).digitChar] :=
        Nat.toDigits_of_base_le (by decide) hge
      have hne : digits (n / 10) ≠ [] := Nat.toDigits_ne_nil
      rw [hsplit, List.head?_append_of_ne_nil _ hne] at h
      have hzero := congrArg digitsValue (ih (n / 10) (by omega) h)
      rw [digitsValue_digits] at hzero
      have hten : digitsValue ['0'] = 0 := rfl
      omega

theorem getLast?_dropBack (c : Char) (s : List Char) : (dropBack c s).getLast? ≠ some c := by
  intro h
  rw [dropBack, List.getLast?_reverse] at h
  have hnot := List.head?_dropWhile_not (· == c) s.reverse
  rw [h] at hnot
  simp at hnot

theorem isCanonicalDecimal_signed {places : ℕ} (hplaces : 0 < places) (negative : Bool) (n : ℕ) :
    IsCanonicalDecimal places (signed negative (decimalLiteral places n).chars) := by
  obtain ⟨k, hlength, -⟩ := digitsValue_decimalLiteral hplaces n
  exact ⟨negative, decimalLiteral places n, rfl, digits_head? _, by omega, getLast?_dropBack _ _⟩

/-- A finite number is printed in canonical form, and never as zero with a minus sign. What is
printed denotes the number itself if that is whole, and else the nearest multiple of `10 ^ -10`, an
even one if two are equally near. Larger numbers are not printed as smaller ones. -/
theorem display_canonical {x : Float} (hx : x.isFinite = true) : ∃ d q,
    Dyadic.ofFloat? x = some d ∧ readDecimal? (display x) = some q ∧
      IsCanonicalDecimal 10 (display x) ∧ display x ≠ "-0".toList ∧
      ((∃ z : ℤ, d.value = z) → q = d.value) ∧
      (∃ n : ℤ, q = n / 10 ^ 10 ∧ |d.value * 10 ^ 10 - n| ≤ 1 / 2 ∧
        (|d.value * 10 ^ 10 - n| = 1 / 2 → Even n)) ∧
      ∀ y : Float, y.isFinite = true → x ≤ y →
        ∃ q', readDecimal? (display y) = some q' ∧ q ≤ q' := by
  obtain ⟨d, hd⟩ := Dyadic.isFinite_iff.mp hx
  refine ⟨d, _, hd, readDecimal?_display hd, ?_, ?_, ?_, ?_, ?_⟩
  · rw [display_eq hd]
    exact isCanonicalDecimal_signed (by decide) _ _
  · rw [display_eq hd]
    exact signed_ne (by decide) fun hsign => by simpa using (Bool.and_eq_true_iff.mp hsign).2
  · rintro ⟨z, hz⟩
    exact Dyadic.decimal_eq_value displayPlaces hz
  · exact Dyadic.exists_decimal displayPlaces d
  · intro y hy hle
    obtain ⟨d', hd'⟩ := Dyadic.isFinite_iff.mp hy
    exact ⟨_, readDecimal?_display hd',
      Dyadic.decimal_mono displayPlaces ((le_iff_value_le hd hd').mp hle)⟩

/-- A negative number that is printed as zero, and one halfway between two decimals, of which the
even one is printed. -/
theorem display_canonical_tie : (-1e-300 : Float).isFinite = true ∧
    (0.00048828125 : Float).isFinite = true ∧ (-1e-300 : Float) ≤ 0.00048828125 ∧
    display (-1e-300) = "0".toList ∧ display 0.00048828125 = "0.0004882812".toList ∧
    ∃ q q', readDecimal? (display (-1e-300)) = some q ∧
      readDecimal? (display 0.00048828125) = some q' ∧ q ≤ q' := by
  have htiny : (-1e-300 : Float).isFinite = true := by decide +kernel
  have htie : (0.00048828125 : Float).isFinite = true := by decide
  have hle : (-1e-300 : Float) ≤ 0.00048828125 := by decide +kernel
  have hzero : display (-1e-300) = "0".toList := by decide +kernel
  have hdisplay : display 0.00048828125 = "0.0004882812".toList := by decide +kernel
  obtain ⟨d, q, -, hq, -, -, -, -, horder⟩ := display_canonical htiny
  obtain ⟨q', hq', hle'⟩ := horder _ htie hle
  exact ⟨htiny, htie, hle, hzero, hdisplay, q, q', hq, hq', hle'⟩

end Reckon.Number
