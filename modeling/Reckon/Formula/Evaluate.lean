/-
Evaluating formulas.

* `evaluateTokens` : the value of a token list, which has to be finite.
* `evaluate` : the value of a text.
* `calculate` : the value of a question in words, which has to hold an operator or a function.
-/
import Reckon.Error
import Reckon.Formula.Value
import Reckon.Wording

namespace Reckon.Formula

/-- The fault as an error. -/
def orMalformed {α : Type} (r : Except Fault α) : Except Error α :=
  r.mapError Error.malformed

/-- The finite value of a token list. -/
def evaluateTokens (ts : List Token) : Except Error Float := do
  let postfixTokens ← orMalformed (toPostfix ts)
  let x ← orMalformed (postfixValue postfixTokens)
  requireFinite x

/-- The finite value of the text of a formula. -/
def evaluate (s : List Char) : Except Error Float := do
  let ts ← orMalformed (scan s)
  evaluateTokens ts

/-- The finite value of a question in words. A number alone is no calculation. -/
def calculate (s : List Char) : Except Error Float := do
  let formula := Wording.normalForm s
  let ts ← orMalformed (scan formula)
  if isCalculation ts then evaluateTokens ts
  else .error (.noMatch (.calculation formula))

end Reckon.Formula
