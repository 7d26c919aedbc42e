/-
Queries with the same words.

All resolvers read the lower-case words of a query and nothing else of it; the text itself is kept
for messages alone. Whether blanks are trimmed before the text is lower-cased or after makes no
difference, not even to a sigma at the end. So queries with the same lower-case words have the same
answer, or none.

* `Kind.toOption_answer_congr` : what one resolver answers.
* `toOption_interpret` : a query without words needs no care of its own.
* `interpret_congr_of_words` : what all of them answer.
-/
import Reckon.Interpreter
import Reckon.Proofs.Lowered

namespace Reckon

open Calendar Text

variable {o : Options} {now : Moment}

theorem collapse_lower_congr {s t : List Char} (h : wordsOf s = wordsOf t) :
    collapse (lower s) = collapse (lower t) :=
  congrArg unwords h

/-- The answer of a resolver is read off the lower-case words of a query. -/
theorem Kind.toOption_answer_congr {s t : List Char} (h : wordsOf s = wordsOf t) (k : Kind) :
    (k.answer o now s).toOption = (k.answer o now t).toOption := by
  have hcollapse := collapse_lower_congr h
  have hread {α : Type} (name? : String → Option α) :
      Conversion.Query.read? name? s = Conversion.Query.read? name? t := by
    rw [Conversion.Query.read?, Conversion.Query.read?, hcollapse]
  cases k with
  | date =>
    have hread : DatePhrase.read? s = DatePhrase.read? t := by
      rw [DatePhrase.read?, DatePhrase.read?, h]
    rw [Kind.answer, Kind.answer, DatePhrase.resolve, DatePhrase.resolve, hread]
    cases DatePhrase.read? t with
    | none => rfl
    | some reading =>
      dsimp only
      cases reading.query.resolve? now o.literalHour <;> rfl
  | unitConversion =>
    rw [Kind.answer, Kind.answer, Conversion.convertUnits, Conversion.convertUnits, hread]
    cases Conversion.Query.read? Conversion.MeasureUnit.ofName? t with
    | none => rfl
    | some q => rfl
  | temperatureConversion =>
    rw [Kind.answer, Kind.answer, Conversion.convertTemperature, Conversion.convertTemperature,
      hread]
    cases (Conversion.Query.read? Conversion.Scale.ofName? t).filter
      fun q => q.source ≠ q.target with
    | none => rfl
    | some q => rfl
  | calculator =>
    rw [Kind.answer, Kind.answer, Formula.calculate, Formula.calculate, Wording.normalForm,
      Wording.normalForm, hcollapse]

/-- A query without words has no answer. -/
theorem firstAnswer_nil : firstAnswer o now [] Kind.inOrder = none := by
  have hnone (k : Kind) : (k.answer o now []).toOption = none := by
    cases k <;> rfl
  simp [firstAnswer, hnone]

theorem toOption_interpret (s : List Char) :
    (interpret o now s).toOption = firstAnswer o now (trim s) Kind.inOrder := by
  cases htrim : trim s with
  | nil =>
    rw [interpret, htrim]
    exact firstAnswer_nil.symm
  | cons c r =>
    simp only [interpret, htrim, List.isEmpty_cons, Bool.false_eq_true, if_false]
    cases firstAnswer o now (c :: r) Kind.inOrder <;> rfl

/-- Queries with the same lower-case words have the same answer. -/
theorem interpret_congr_of_words (o : Options) (now : Moment) {s t : List Char}
    (h : collapse (lower s) = collapse (lower t)) :
    (interpret o now s).toOption = (interpret o now t).toOption := by
  have hwords : wordsOf (trim s) = wordsOf (trim t) := by
    rw [wordsOf_trim, wordsOf_trim, wordsOf, wordsOf, ← words_collapse, h, words_collapse]
  rw [toOption_interpret, toOption_interpret, firstAnswer, firstAnswer]
  congr 1
  funext k
  rw [Kind.toOption_answer_congr hwords]

/-- Blanks of several kinds, and the sign for kelvins, whose lower case is a letter of ASCII. -/
theorem interpret_congr_of_words_kelvin :
    collapse (lower " 5\u2003\u212Ag TO lb\n".toList) = collapse (lower "5 kg to lb".toList) ∧
      ∀ o now, (interpret o now " 5\u2003\u212Ag TO lb\n".toList).toOption =
        (interpret o now "5 kg to lb".toList).toOption := by
  have h : collapse (lower " 5\u2003\u212Ag TO lb\n".toList) =
      collapse (lower "5 kg to lb".toList) := by
    decide +kernel
  exact ⟨h, fun o now => interpret_congr_of_words o now h⟩

end Reckon
