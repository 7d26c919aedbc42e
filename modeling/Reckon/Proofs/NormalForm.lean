/-
The normal form of a formula has the value of the formula.

Rewording takes a formula for a text like any other. Where it looks at one it finds powers of
literals and scientific notation, and writes each as a call or in parentheses. This keeps the value
as long as the formula groups them in the same way: a power must not be an exponent's base or stand
directly behind a function, and scientific notation must begin a summand. The formulas that break
one of these rules are formulas all the same, and some of them change their value.

* `Grouped.unchained`, `Grouped.unrooted` : replacing scientific notation brings no power into a
  place where powers must not stand.
* `evaluate_normalForm` : evaluating the normal form of a formula evaluates the formula.
* `evaluate_normalForm_ne` : formulas whose normal forms have other values.
-/
import Reckon.Proofs.Regrouping

namespace Reckon.Formula

/-! ### Powers after scientific notation has been replaced -/

theorem Grouped.head_ne_pow {lead : Bool} {is is' : List Item} (h : Grouped lead is is')
    (his : ∀ j ∈ is.head?, j.lexeme ≠ .binary .pow) :
    ∀ j ∈ is'.head?, j.lexeme ≠ .binary .pow := by
  intro j hj
  cases h with
  | nil => cases hj
  | keep hi h => exact his j hj
  | group hs hwhole h =>
    cases hj
    simp

/-- What replaces scientific notation begins with a parenthesis; any other item has been kept. -/
theorem Grouped.of_cons {lead : Bool} {i : Item} {is is' : List Item}
    (h : Grouped lead is (i :: is')) (hi : i.lexeme ≠ .leftParen) :
    ∃ js, is = i :: js ∧ Grouped (leadsAfter lead i.lexeme) js is' := by
  generalize hs : i :: is' = s at h
  cases h with
  | nil => cases hs
  | keep _ h =>
    cases hs
    exact ⟨_, rfl, h⟩
  | group _ _ h =>
    injection hs with hhead
    exact absurd (by rw [hhead]) hi

/-- An exponent in front of the items with scientific notation replaced was there before. -/
theorem Grouped.exponent_items {lead : Bool} {is rest' : List Item} {e : Exponent} {sp : Bool}
    (h : Grouped lead is (e.items sp ++ rest')) :
    ∃ lead' rest, is = e.items sp ++ rest ∧ Grouped lead' rest rest' := by
  rw [Exponent.items] at h ⊢
  cases hsign : e.negative with
  | false =>
    rw [hsign] at h
    obtain ⟨js, rfl, hjs⟩ := Grouped.of_cons h (by simp)
    exact ⟨_, js, rfl, hjs⟩
  | true =>
    rw [hsign] at h
    obtain ⟨js, rfl, hjs⟩ := Grouped.of_cons h (by simp)
    obtain ⟨ks, rfl, hks⟩ := Grouped.of_cons hjs (by simp)
    exact ⟨_, ks, rfl, hks⟩

theorem Grouped.power?_eq_none {lead : Bool} {is is' : List Item} (h : Grouped lead is is')
    (his : power? is = none) : power? is' = none := by
  rw [Option.eq_none_iff_forall_not_mem]
  intro p hp
  obtain ⟨sp, sp₁, sp₂, rfl⟩ := items_of_power? hp
  obtain ⟨js, rfl, hjs⟩ := h.of_cons (by simp)
  obtain ⟨ks, rfl, hks⟩ := hjs.of_cons (by simp)
  obtain ⟨-, rest, rfl, -⟩ := hks.exponent_items
  rw [power?, exponent?_items] at his
  cases his

theorem Unchained.append {is js : List Item} (h : Unchained js)
    (his : ∀ i ∈ is, i.lexeme ≠ .binary .pow) : Unchained (is ++ js) := by
  induction is with
  | nil => exact h
  | cons i is ih =>
    exact ⟨fun hi => absurd hi (his i (by simp)), ih fun j hj => his j (List.mem_cons_of_mem _ hj)⟩

/-- No exponent is followed by a power operator after scientific notation has been replaced. -/
theorem Grouped.unchained {lead : Bool} {is is' : List Item} (h : Grouped lead is is')
    (hchain : Unchained is) : Unchained is' := by
  induction h with
  | nil => trivial
  | keep hi h ih =>
    refine ⟨fun hpow e rest' he => ?_, ih hchain.2⟩
    obtain ⟨sp, rfl⟩ := items_of_exponent? he
    obtain ⟨_, rest, rfl, hrest⟩ := h.exponent_items
    exact hrest.head_ne_pow (hchain.1 hpow e rest (exponent?_items ..))
  | @group i is is' n p hs hwhole h ih =>
    obtain ⟨-, sp, sp₁, sp₂, sp₃, sp₄, his⟩ := items_of_scientific? hs
    cases his
    have hrest : Unchained is' := ih hchain.2.2.2.2.of_exponent
    have hitems : ∀ j ∈ scientificItems n p sp, j.lexeme ≠ .binary .pow := by
      rw [scientificItems, Power.items, Exponent.items]
      cases p.exponent.negative <;> simp
    exact hrest.append hitems

/-- No function stands in front of a power after scientific notation has been replaced. -/
theorem Grouped.unrooted {lead : Bool} {is is' : List Item} (h : Grouped lead is is')
    (hroot : Unrooted is) : Unrooted is' := by
  induction h with
  | nil => trivial
  | keep hi h ih => exact ⟨fun f hf => h.power?_eq_none (hroot.1 f hf), ih hroot.2⟩
  | @group i is is' n p hs hwhole h ih =>
    obtain ⟨-, sp, sp₁, sp₂, sp₃, sp₄, his⟩ := items_of_scientific? hs
    cases his
    have hrest : Unrooted is' := ih hroot.2.2.2.2.of_exponent
    have hclosed : Unrooted (p.exponent.items false ++ ⟨false, .rightParen⟩ ::
        ⟨false, .rightParen⟩ :: is') := by
      rw [Exponent.items]
      cases p.exponent.negative <;> simpa [Unrooted] using hrest
    have hitems : scientificItems n p sp ++ is' = ⟨sp, .leftParen⟩ :: ⟨false, .number n⟩ ::
        ⟨true, .binary .mul⟩ :: ⟨true, .function .pow⟩ :: ⟨false, .leftParen⟩ ::
        ⟨false, .number p.base⟩ :: ⟨false, .comma⟩ :: (p.exponent.items false ++
          ⟨false, .rightParen⟩ :: ⟨false, .rightParen⟩ :: is') := by
      simp [scientificItems, Power.items]
    show Unrooted (scientificItems n p sp ++ is')
    rw [hitems]
    -- behind the function there is a parenthesis, and the other items are no functions
    simpa [Unrooted, power?, exponent?] using hclosed

/-! ### Values of normal forms -/

theorem evaluate_of_scan {s : List Char} {ts : List Token} (h : scan s = .ok ts) :
    evaluate s = evaluateTokens ts := by
  rw [evaluate, h]
  rfl

/-- Evaluating the normal form of a formula gives the value of the formula, when no exponent is
followed by a power operator, no function stands directly in front of a power of a literal, and
scientific notation has a whole exponent and stands only where a place leads. -/
theorem evaluate_normalForm {i : Item} {is is' : List Item} {t : Expr}
    (hformula : IsFormula (tokens (i :: is)) t) (hspaced : i.spaced = false)
    (hchain : Unchained (i :: is)) (hroot : Unrooted (i :: is))
    (hgrouped : Grouped true (i :: is) is') :
    evaluate (Wording.normalForm (spell (i :: is))) = evaluate (spell (i :: is)) := by
  have hplaced := hformula.placed
  obtain ⟨is₂, hpowers⟩ := exists_powers is'
  rw [evaluate_of_scan (scan_normalForm hspaced hplaced hgrouped hpowers),
    evaluate_of_scan (scan_spell hplaced)]
  apply evaluateTokens_congr
  have hstart : Yard.start.Leads := Yard.leads_of_head nofun
  -- first scientific notation is taken back, then the powers that are left
  rw [outcome_grouped hgrouped hchain hplaced fun _ => hstart]
  exact (outcome_powers hpowers (hgrouped.unchained hchain) (hgrouped.unrooted hroot)
    (hgrouped.placed hplaced) (fun _ => ⟨nofun, nofun⟩) fun _ => rfl).symm

/-- The literal with these digits before and behind its point. -/
def Literal.ofDigits (whole fraction : List Char)
    (h : whole ≠ [] ∧ ∀ c ∈ whole ++ fraction, c.isDigit = true) : Literal :=
  ⟨⟨whole, fraction⟩, h.1, h.2⟩

/-- The formula `2 ^ 3 + -1.5 * 10 ^ 2`. -/
def sumOfPowers : List Item :=
  [⟨false, .number (.ofDigits ['2'] [] (by decide))⟩, ⟨true, .binary .pow⟩,
    ⟨true, .number (.ofDigits ['3'] [] (by decide))⟩, ⟨true, .binary .add⟩, ⟨true, .negate⟩,
    ⟨false, .number (.ofDigits ['1'] ['5'] (by decide))⟩, ⟨true, .binary .mul⟩,
    ⟨true, .number (.ofDigits ['1', '0'] [] (by decide))⟩, ⟨true, .binary .pow⟩,
    ⟨true, .number (.ofDigits ['2'] [] (by decide))⟩]

/-- A power and scientific notation behind a sign are both replaced, and the value is kept. -/
theorem evaluate_normalForm_sumOfPowers :
    Wording.normalForm (spell sumOfPowers) = "pow(2,3) + -(1.5 * pow(10,2))".toList ∧
      evaluate (Wording.normalForm (spell sumOfPowers)) = evaluate (spell sumOfPowers) ∧
      (evaluate (spell sumOfPowers)).toOption = some (-142) := by
  refine ⟨by decide +kernel, ?_, by decide +kernel⟩
  have hformula : ∃ t, IsFormula (tokens sumOfPowers) t := by
    refine ⟨_, .number (.binary (by decide) (.number (.stop ?_)) (.binary (by decide)
      (.negate (.number (.stop ?_)) (.binary (by decide)
        (.number (.binary (by decide) (.number (.stop ?_)) (.stop ?_))) (.stop ?_))) (.stop ?_)))⟩
    all_goals rintro op r ⟨⟩ <;> decide
  obtain ⟨t, ht⟩ := hformula
  have hgrouped : ∃ is', Grouped true sumOfPowers is' :=
    ⟨_, .keep rfl (.keep rfl (.keep rfl (.keep rfl (.keep rfl (.group rfl rfl .nil)))))⟩
  obtain ⟨is', hgrouped⟩ := hgrouped
  refine evaluate_normalForm ht rfl ?_ ?_ hgrouped
  · simp [Unchained, exponent?]
  · simp [Unrooted]

/-- The formula `6 / 2 * 10 ^ 1`. -/
def quotientTimesTen : List Item :=
  [⟨false, .number (.ofDigits ['6'] [] (by decide))⟩, ⟨true, .binary .div⟩,
    ⟨true, .number (.ofDigits ['2'] [] (by decide))⟩, ⟨true, .binary .mul⟩,
    ⟨true, .number (.ofDigits ['1', '0'] [] (by decide))⟩, ⟨true, .binary .pow⟩,
    ⟨true, .number (.ofDigits ['1'] [] (by decide))⟩]

/-- The formula `cbrt 346521356 ^ 2`, the square of a root that is rounded. -/
def powerOfRoot : List Item :=
  [⟨false, .function .cbrt⟩,
    ⟨true, .number (.ofDigits ['3', '4', '6', '5', '2', '1', '3', '5', '6'] [] (by decide))⟩,
    ⟨true, .binary .pow⟩, ⟨true, .number (.ofDigits ['2'] [] (by decide))⟩]

theorem isFormula_quotientTimesTen : ∃ t, IsFormula (tokens quotientTimesTen) t := by
  refine ⟨_, .number (.binary (by decide) (.number (.stop ?_)) (.binary (by decide)
    (.number (.binary (by decide) (.number (.stop ?_)) (.stop ?_))) (.stop ?_)))⟩
  all_goals rintro op r ⟨⟩ <;> decide

theorem isFormula_powerOfRoot : ∃ t, IsFormula (tokens powerOfRoot) t := by
  refine ⟨_, .cbrt (.number (.stop ?_)) (.binary (by decide) (.number (.stop ?_)) (.stop ?_))⟩
  · rintro op r ⟨⟩
    decide
  · rintro op r ⟨⟩
  · rintro op r ⟨⟩

/-- Some formulas have normal forms with other values. Scientific notation binds tighter in the
normal form than the division in front of it, and a function is taken of a power and no longer to a
power. -/
theorem evaluate_normalForm_ne :
    (spell quotientTimesTen = "6 / 2 * 10 ^ 1".toList ∧
      (∃ t, IsFormula (tokens quotientTimesTen) t) ∧ Unchained quotientTimesTen ∧
      (evaluate (spell quotientTimesTen)).toOption = some 30 ∧
      (evaluate (Wording.normalForm (spell quotientTimesTen))).toOption = some 0.3) ∧
    (spell powerOfRoot = "cbrt 346521356 ^ 2".toList ∧
      (∃ t, IsFormula (tokens powerOfRoot) t) ∧ Unchained powerOfRoot ∧
      (evaluate (spell powerOfRoot)).toOption ≠
        (evaluate (Wording.normalForm (spell powerOfRoot))).toOption) := by
  refine ⟨⟨rfl, isFormula_quotientTimesTen, ?_, by decide +kernel, by decide +kernel⟩,
    rfl, isFormula_powerOfRoot, ?_, by decide +kernel⟩
  · simp [quotientTimesTen, Unchained, exponent?]
  · simp [powerOfRoot, Unchained, exponent?]

end Reckon.Formula
