/-
Numbers as they are displayed.

A number is displayed as a decimal literal, perhaps behind a minus sign. The literal denotes the
exact value rounded to ten places, also where the number is whole and is written without a fraction:
there is nothing to round then, and all ten digits of the fraction are zeros.

* `digitsValue_digits`, `digitsValue_append` : what digits denote.
* `decimalLiteral` : the literal for a number counted in units of the last place.
* `decimalLiteral_value` : what it denotes.
* `display_eq` : every finite number is displayed as such a literal.
-/
import Reckon.Proofs.Nearest
import Reckon.Proofs.Spelling

namespace Reckon.Number

/-! ### What digits denote -/

theorem digitsValue_eq (ds : List Char) : digitsValue ds = Nat.ofDigitChars 10 ds 0 := rfl

theorem digitsValue_append (a b : List Char) :
    digitsValue (a ++ b) = 10 ^ b.length * digitsValue a + digitsValue b := by
  rw [digitsValue_eq, Nat.ofDigitChars_append, Nat.ofDigitChars_eq_ofDigitChars_zero]
  rfl

theorem digitsValue_digits (n : Nat) : digitsValue (digits n) = n :=
  Nat.ofDigitChars_ten_toDigits

theorem digitsValue_replicate (k : Nat) : digitsValue (List.replicate k '0') = 0 := by
  rw [digitsValue_eq, Nat.ofDigitChars_replicate_zero, Nat.mul_zero]

theorem digitsValue_paddedDigits (width n : Nat) : digitsValue (paddedDigits width n) = n := by
  rw [paddedDigits, List.leftpad, digitsValue_append, digitsValue_replicate, digitsValue_digits,
    Nat.mul_zero, Nat.zero_add]

theorem length_paddedDigits {width n : Nat} (hwidth : 0 < width) (h : n < 10 ^ width) :
    (paddedDigits width n).length = width := by
  rw [paddedDigits, List.length_leftpad]
  exact Nat.max_eq_left ((Nat.length_toDigits_le_iff (by decide) hwidth).mpr h)

theorem isDigit_of_mem_digits {n : Nat} {c : Char} (hc : c ∈ digits n) : c.isDigit = true :=
  Nat.isDigit_of_mem_toDigits (by decide) (by decide) hc

theorem isDigit_of_mem_paddedDigits {width n : Nat} {c : Char} (hc : c ∈ paddedDigits width n) :
    c.isDigit = true := by
  rw [paddedDigits, List.leftpad] at hc
  rcases List.mem_append.mp hc with hc | hc
  · rw [List.eq_of_mem_replicate hc]
    rfl
  · exact isDigit_of_mem_digits hc

/-! ### Trimming -/

theorem exists_dropBack (c : Char) (s : List Char) :
    ∃ k, s = dropBack c s ++ List.replicate k c := by
  refine ⟨(s.reverse.takeWhile (· == c)).length, ?_⟩
  have hall : s.reverse.takeWhile (· == c) =
      List.replicate (s.reverse.takeWhile (· == c)).length c := by
    refine List.eq_replicate_of_mem fun d hd => ?_
    exact beq_iff_eq.mp (List.all_eq_true.mp List.all_takeWhile d hd)
  have hsplit := congrArg List.reverse
    (List.takeWhile_append_dropWhile (p := (· == c)) (l := s.reverse))
  rw [List.reverse_append, List.reverse_reverse, hall, List.reverse_replicate] at hsplit
  exact hsplit.symm

/-- What stands before another character is kept. -/
theorem dropBack_append {c d : Char} (hd : d ≠ c) (a s : List Char) :
    dropBack c (a ++ d :: s) = a ++ d :: dropBack c s := by
  have hstop : (d :: a.reverse).dropWhile (· == c) = d :: a.reverse :=
    List.dropWhile_cons_of_neg (by simpa using hd)
  have hreverse : (a ++ d :: s).reverse = s.reverse ++ d :: a.reverse := by simp
  rw [dropBack, dropBack, hreverse, List.dropWhile_append, hstop]
  split
  · next hempty => simp [List.isEmpty_iff.mp hempty]
  · simp

theorem dropBack_of_not_mem {c : Char} {s : List Char} (h : c ∉ s) : dropBack c s = s := by
  obtain ⟨k, hk⟩ := exists_dropBack c s
  cases k with
  | zero => simpa using hk.symm
  | succ k =>
    have hc : c ∈ s := by
      rw [hk]
      simp [List.replicate_succ]
    exact absurd hc h

theorem trimZeros_signed (negative : Bool) (s : List Char) :
    trimZeros (signed negative s) = signed negative (trimZeros s) := by
  cases negative with
  | false => rfl
  | true =>
    show dropBack '.' (dropBack '0' ([] ++ '-' :: s)) = '-' :: dropBack '.' (dropBack '0' s)
    rw [dropBack_append (by decide), dropBack_append (by decide)]
    rfl

/-- Trimming takes the zeros off the fraction, and the point if nothing is left of it. -/
theorem trimZeros_point {whole fraction : List Char} (hwhole : '.' ∉ whole)
    (hfraction : '.' ∉ fraction) : trimZeros (whole ++ '.' :: fraction) =
      whole ++ if (dropBack '0' fraction).isEmpty then [] else '.' :: dropBack '0' fraction := by
  rw [trimZeros, dropBack_append (by decide)]
  have hrest : '.' ∉ dropBack '0' fraction := by
    obtain ⟨k, hk⟩ := exists_dropBack '0' fraction
    rw [hk] at hfraction
    exact fun hc => hfraction (List.mem_append_left _ hc)
  generalize dropBack '0' fraction = f at hrest
  rcases List.eq_nil_or_concat f with rfl | ⟨g, d, rfl⟩
  · have hpoint : dropBack '.' (whole ++ ['.']) = dropBack '.' whole := by
      simp [dropBack]
    rw [hpoint, dropBack_of_not_mem hwhole]
    simp
  · have hd : d ≠ '.' := fun heq => hrest (by simp [heq])
    have hkeep := dropBack_append hd (whole ++ '.' :: g) []
    simpa [dropBack] using hkeep

/-! ### Literals -/

/-- The literal for the number `n`, counted in units of the last of `places` decimal places. -/
def decimalLiteral (places n : Nat) : Formula.Literal where
  whole := digits (n / 10 ^ places)
  fraction := dropBack '0' (paddedDigits places (n % 10 ^ places))
  whole_ne_nil := Nat.toDigits_ne_nil
  isDigit_of_mem := by
    intro c hc
    rcases List.mem_append.mp hc with hc | hc
    · exact isDigit_of_mem_digits hc
    · obtain ⟨k, hk⟩ := exists_dropBack '0' (paddedDigits places (n % 10 ^ places))
      have hmem : c ∈ paddedDigits places (n % 10 ^ places) := by
        rw [hk]
        exact List.mem_append_left _ hc
      exact isDigit_of_mem_paddedDigits hmem

theorem trimZeros_withPlaces {places : Nat} (hplaces : 0 < places) (n : Nat) :
    trimZeros (withPlaces places n) = (decimalLiteral places n).chars := by
  have hpoint {s : List Char} (hs : ∀ c ∈ s, c.isDigit = true) : '.' ∉ s :=
    fun hc => absurd (hs _ hc) (by decide)
  rw [withPlaces, if_neg hplaces.ne']
  exact trimZeros_point (hpoint fun c => isDigit_of_mem_digits)
    (hpoint fun c => isDigit_of_mem_paddedDigits)

/-- The digits of the literal, with the zeros that were trimmed put back, are the number. -/
theorem digitsValue_decimalLiteral {places : Nat} (hplaces : 0 < places) (n : Nat) :
    ∃ k, (decimalLiteral places n).fraction.length + k = places ∧
      digitsValue ((decimalLiteral places n).whole ++ (decimalLiteral places n).fraction) *
        10 ^ k = n := by
  have hlt : n % 10 ^ places < 10 ^ places := Nat.mod_lt _ (Nat.pow_pos (by decide))
  obtain ⟨k, hk⟩ := exists_dropBack '0' (paddedDigits places (n % 10 ^ places))
  have hlength := length_paddedDigits hplaces hlt
  have hvalue := digitsValue_paddedDigits places (n % 10 ^ places)
  rw [hk, List.length_append, List.length_replicate] at hlength
  rw [hk, digitsValue_append, List.length_replicate, digitsValue_replicate, Nat.add_zero] at hvalue
  refine ⟨k, hlength, ?_⟩
  show digitsValue (digits (n / 10 ^ places) ++ _) * 10 ^ k = n
  rw [digitsValue_append, digitsValue_digits]
  calc (10 ^ (dropBack '0' (paddedDigits places (n % 10 ^ places))).length * (n / 10 ^ places) +
        digitsValue (dropBack '0' (paddedDigits places (n % 10 ^ places)))) * 10 ^ k
      = 10 ^ places * (n / 10 ^ places) + n % 10 ^ places := by
        rw [Nat.add_mul, Nat.mul_comm _ (10 ^ k), Nat.mul_comm _ (10 ^ k), hvalue, ← Nat.mul_assoc,
          ← Nat.pow_add, Nat.add_comm k, hlength]
    _ = n := Nat.div_add_mod n (10 ^ places)

theorem decimalLiteral_value {places : Nat} (hplaces : 0 < places) (n : Nat) :
    (digitsValue ((decimalLiteral places n).whole ++ (decimalLiteral places n).fraction) : ℚ) /
      (Nat.pow 10 (decimalLiteral places n).fraction.length : ℕ) = n / 10 ^ places := by
  obtain ⟨k, hlength, hvalue⟩ := digitsValue_decimalLiteral hplaces n
  generalize decimalLiteral places n = l at hlength hvalue
  have hpow : ((Nat.pow 10 l.fraction.length : ℕ) : ℚ) = 10 ^ l.fraction.length :=
    Nat.cast_pow 10 _
  rw [hpow, ← hlength, ← hvalue, pow_add, Nat.cast_mul, Nat.cast_pow, Nat.cast_ofNat]
  exact (mul_div_mul_right _ _ (pow_ne_zero k (by norm_num))).symm

/-- A literal without a fraction. -/
theorem decimalLiteral_mul (places n : Nat) :
    (decimalLiteral places (n * 10 ^ places)).chars = digits n := by
  have hpow : 0 < 10 ^ places := Nat.pow_pos (by decide)
  have hzeros : ∀ c ∈ paddedDigits places 0, c = '0' := by
    intro c hc
    rw [paddedDigits, List.leftpad] at hc
    rcases List.mem_append.mp hc with hc | hc
    · exact List.eq_of_mem_replicate hc
    · exact List.mem_singleton.mp hc
  have hfraction : dropBack '0' (paddedDigits places 0) = [] := by
    rw [dropBack, List.reverse_eq_nil_iff, List.dropWhile_eq_nil_iff]
    exact fun c hc => beq_iff_eq.mpr (hzeros c (List.mem_reverse.mp hc))
  rw [Formula.Literal.chars, decimalLiteral]
  simp only [Nat.mul_div_cancel n hpow, Nat.mul_mod_left, hfraction]
  exact List.append_nil _

/-- Only zero has the literal `0`. -/
theorem eq_zero_of_chars {places : Nat} (hplaces : 0 < places) {n : Nat}
    (h : (decimalLiteral places n).chars = ['0']) : n = 0 := by
  obtain ⟨k, -, hvalue⟩ := digitsValue_decimalLiteral hplaces n
  generalize decimalLiteral places n = l at h hvalue
  rw [Formula.Literal.chars] at h
  cases hfraction : l.fraction with
  | nil =>
    have hwhole : l.whole = ['0'] := by simpa [hfraction] using h
    rw [hwhole, hfraction] at hvalue
    simpa [digitsValue, digitValue] using hvalue.symm
  | cons c f =>
    have hpoint : '.' ∈ ['0'] := by
      rw [← h, hfraction]
      simp
    exact absurd hpoint (by decide)

/-! ### Displaying -/

namespace Dyadic

theorem exists_natCast_of_isWhole {d : Dyadic} (h : d.isWhole = true) :
    ∃ n : ℕ, d.magnitude = n := by
  rw [isWhole, Bool.or_eq_true, decide_eq_true_eq, beq_iff_eq] at h
  by_cases he : 0 ≤ d.exponent
  · refine ⟨d.mantissa * Nat.pow 2 d.exponent.toNat, ?_⟩
    rw [magnitude, Nat.cast_mul, natCast_pow_toNat he]
  · obtain ⟨n, hn⟩ := Nat.dvd_of_mod_eq_zero (h.resolve_left he)
    refine ⟨n, ?_⟩
    rw [magnitude, hn, Nat.cast_mul, natCast_pow_toNat (by omega), mul_right_comm, zpow_neg,
      inv_mul_cancel₀ (two_zpow_pos _).ne', one_mul]

theorem scaled_of_magnitude {d : Dyadic} {n : ℕ} (h : d.magnitude = n) (factor : ℕ) :
    d.scaled factor = n * factor := by
  refine (d.roundsTo_scaled factor).eq_of_eq_natCast ?_
  rw [h, Nat.cast_mul]

/-- The exact value in units of the last place that is displayed. -/
def shown (d : Dyadic) : ℕ :=
  d.scaled (Nat.pow 10 displayPlaces)

end Dyadic

/-- A lone zero has no minus sign if only numbers other than zero are given one. -/
theorem signed_ne {places : Nat} (hplaces : 0 < places) {negative : Bool} {n : Nat}
    (h : negative = true → n ≠ 0) :
    signed negative (decimalLiteral places n).chars ≠ ['-', '0'] := by
  intro hsigned
  cases negative with
  | true => exact h rfl (eq_zero_of_chars hplaces (List.cons_eq_cons.mp hsigned).2)
  | false =>
    have hminus : '-' ∈ (decimalLiteral places n).chars := by
      rw [show (decimalLiteral places n).chars = ['-', '0'] from hsigned]
      exact List.mem_cons_self
    rcases Formula.Literal.mem_chars hminus with hdigit | hpoint
    · exact absurd hdigit (by decide)
    · exact absurd hpoint (by decide)

/-- A minus sign in front of a lone zero is left out. -/
theorem signed_eq {places : Nat} (hplaces : 0 < places) (negative : Bool) (n : Nat) :
    (if signed negative (decimalLiteral places n).chars = ['-', '0'] then ['0']
      else signed negative (decimalLiteral places n).chars) =
      signed (negative && n != 0) (decimalLiteral places n).chars := by
  by_cases hn : n = 0
  · have hchars := decimalLiteral_mul places 0
    rw [Nat.zero_mul, digits, Nat.toDigits_zero] at hchars
    rw [hn, hchars]
    cases negative <;> rfl
  · have hne : (n != 0) = true := bne_iff_ne.mpr hn
    rw [if_neg (signed_ne hplaces fun _ => hn), hne, Bool.and_true]

/-- A finite number is displayed as a literal, behind a minus sign unless it is shown as zero. -/
theorem display_eq {x : Float} {d : Dyadic} (h : Dyadic.ofFloat? x = some d) :
    display x = signed (d.negative && d.shown != 0) (decimalLiteral displayPlaces d.shown).chars := by
  simp only [display, h]
  by_cases hwhole : d.isWhole = true
  · obtain ⟨n, hn⟩ := Dyadic.exists_natCast_of_isWhole hwhole
    have hunit : d.scaled 1 = n := by rw [Dyadic.scaled_of_magnitude hn, Nat.mul_one]
    have hshown : d.shown = n * 10 ^ displayPlaces := Dyadic.scaled_of_magnitude hn _
    have hzero : (d.mantissa != 0) = (d.shown != 0) := by
      have hmantissa : d.mantissa = 0 ↔ n = 0 := by
        rw [← d.magnitude_eq_zero_iff, hn, Nat.cast_eq_zero]
      rw [Bool.eq_iff_iff, bne_iff_ne, bne_iff_ne, Ne, Ne, hmantissa, hshown]
      simp
    rw [if_pos hwhole, hunit, hzero, hshown, decimalLiteral_mul]
  · have hfixed : trimZeros (fixed displayPlaces x) =
        signed d.negative (decimalLiteral displayPlaces d.shown).chars := by
      rw [fixed, h]
      exact (trimZeros_signed _ _).trans
        (congrArg (signed d.negative) (trimZeros_withPlaces (by decide) d.shown))
    rw [if_neg hwhole, hfixed]
    exact signed_eq (by decide) d.negative d.shown

end Reckon.Number
