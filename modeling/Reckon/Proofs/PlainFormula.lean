/-
Formulas without powers are their own normal forms.

Of all replacements of the wording only those for powers and for scientific notation find anything
in a text that is made of lexemes, and both look for the sign of a power. So a text of lexemes other
than this sign stays as it is, whether it is a formula or not: names may run together, signs may
follow each other, and numbers may stand side by side. Only asterisks may not, for two of them are
another sign for powers.

* `misfits_plain` : no replacement has a match in characters of formulas other than that sign.
* `fits_spell_of_stars` : which characters stand next to each other in a text of lexemes.
* `normalForm_spell_eq_self` : texts of lexemes without powers are kept.
-/
import Reckon.Proofs.Spelling
import Reckon.Wording

namespace Reckon.Formula

/-- The character can stand in a formula without powers. -/
def plainFits (c : Char) : Bool :=
  fits c && c != '^'

theorem misfits_plain : ∀ r ∈ Wording.rules, r.pattern.misfits plainFits joins = true := by
  decide

/-- Asterisks apart, lexemes may stand next to each other in any order. -/
theorem fits_spell_of_stars {is : List Item} (h : ¬ ['*', '*'] <:+: spell is) :
    Pattern.Fits fits joins (spell is) := by
  induction is with
  | nil => exact ⟨by simp [spell], by simp [spell]⟩
  | cons i is ih =>
    rw [spell_cons] at h ⊢
    have hrest : ¬ ['*', '*'] <:+: spell is := fun hpart =>
      h (hpart.trans ((List.suffix_append ..).trans (List.suffix_append ..)).isInfix)
    refine fits_item i (ih hrest) fun hmul hhead => ?_
    obtain ⟨s, hs⟩ := List.head?_eq_some_iff.mp hhead
    refine h ⟨space i.spaced, s, ?_⟩
    rw [hmul, hs]
    simp [Lexeme.chars, BinaryOp.char]

theorem caret_not_mem_chars {l : Lexeme} (h : l ≠ .binary .pow) : '^' ∉ l.chars := by
  cases l with
  | number n =>
    intro hc
    rcases n.mem_chars hc with hdigit | hpoint
    · exact absurd hdigit (by decide)
    · exact absurd hpoint (by decide)
  | binary op =>
    cases op with
    | pow => exact absurd rfl h
    | add | sub | mul | div => decide
  | function f => cases f <;> decide
  | negate | leftParen | rightParen | comma => decide

theorem caret_not_mem_spell {is : List Item} (h : ∀ i ∈ is, i.lexeme ≠ .binary .pow) :
    '^' ∉ spell is := by
  rw [spell, List.mem_flatMap]
  rintro ⟨i, hi, hc⟩
  rw [Item.chars, List.mem_append] at hc
  rcases hc with hc | hc
  · rw [space] at hc
    split at hc <;> simp at hc
  · exact caret_not_mem_chars (h i hi) hc

/-- A text of lexemes other than the sign for powers, with single spaces between them or none, is
its own normal form, unless two asterisks stand side by side in it. -/
theorem normalForm_spell_eq_self {is : List Item} (hfirst : ∀ i ∈ is.head?, i.spaced = false)
    (hpow : ∀ i ∈ is, i.lexeme ≠ .binary .pow) (hstar : ¬ ['*', '*'] <:+: spell is) :
    Wording.normalForm (spell is) = spell is := by
  have hcollapse : Text.collapse (spell is) = spell is := by
    cases is with
    | nil => rfl
    | cons i is => exact collapse_spell is (hfirst i rfl)
  have hfits := fits_spell_of_stars hstar
  have hplain : Pattern.Fits plainFits joins (spell is) := by
    refine ⟨fun c hc => ?_, hfits.pairs⟩
    have hcaret : c ≠ '^' := fun heq => caret_not_mem_spell hpow (heq ▸ hc)
    simp [plainFits, hfits.chars c hc, hcaret]
  rw [Wording.normalForm, lower_spell, hcollapse, Wording.reworded,
    Replacement.foldl_apply_of_misfits misfits_plain hplain, hcollapse]

/-- Names that run together, signs in a row, asterisks with a space between them, numbers side by
side, and a parenthesis that is never opened. -/
theorem normalForm_spell_eq_self_runTogether : ∃ is : List Item,
    spell is = "sqrtpow- +2 1.50* *cbrt,3)".toList ∧
      (∀ i ∈ is.head?, i.spaced = false) ∧ (∀ i ∈ is, i.lexeme ≠ .binary .pow) ∧
      ¬ ['*', '*'] <:+: spell is ∧
      Wording.normalForm "sqrtpow- +2 1.50* *cbrt,3)".toList =
        "sqrtpow- +2 1.50* *cbrt,3)".toList := by
  let is : List Item := [⟨false, .function .sqrt⟩, ⟨false, .function .pow⟩, ⟨false, .negate⟩,
    ⟨true, .binary .add⟩, ⟨false, .number ⟨⟨['2'], []⟩, by decide, by decide⟩⟩,
    ⟨true, .number ⟨⟨['1'], ['5', '0']⟩, by decide, by decide⟩⟩, ⟨false, .binary .mul⟩,
    ⟨true, .binary .mul⟩, ⟨false, .function .cbrt⟩, ⟨false, .comma⟩,
    ⟨false, .number ⟨⟨['3'], []⟩, by decide, by decide⟩⟩, ⟨false, .rightParen⟩]
  have hspell : spell is = "sqrtpow- +2 1.50* *cbrt,3)".toList := by decide +kernel
  have hfirst : ∀ i ∈ is.head?, i.spaced = false := by simp [is]
  have hpow : ∀ i ∈ is, i.lexeme ≠ .binary .pow := by simp [is]
  have hstar : ¬ ['*', '*'] <:+: spell is := by
    rw [hspell]
    decide +kernel
  refine ⟨is, hspell, hfirst, hpow, hstar, ?_⟩
  rw [← hspell]
  exact normalForm_spell_eq_self hfirst hpow hstar

end Reckon.Formula
