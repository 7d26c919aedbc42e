/-
From a question in words to a formula.

The normal form of a text is reached by a fixed list of replacements, applied in order to the
lower-case text with single spaces. Each stage assumes that the earlier ones have run:

* `symbols` : other signs for the operators, and `x` between digits;
* `operatorWords` : the operators in English and Spanish words;
* `fillers` : words and signs that only make it a question;
* `meanings` : doubles, halves and roots, percentages, powers of ten, powers, and constants.

Nothing is checked here: a text that is no calculation keeps its words.
-/
import Reckon.Text.LowerCase
import Reckon.Pattern.Replacement

namespace Reckon.Wording

open Pattern

/-- A numeral: digits, with a point and more digits or without. -/
def numeral : Pattern :=
  atLeastOne .digit ++ optional (text "." ++ atLeastOne .digit)

/-- A numeral that is kept. -/
def keptNumeral : Pattern :=
  capture numeral

/-- Digits behind a sign or without one. -/
def signedDigits : Pattern :=
  optional (one (.oneOf ['+', '-'])) ++ atLeastOne .digit

/-- A replacement of texts that stand as words of their own. -/
def wordReplacement (ws : List String) (output : String) : Replacement where
  pattern := phrase ws
  output := [.text output]

/-- A replacement of any of these texts at the beginning of a word, with the blanks behind it. -/
def leadReplacement (lead : Pattern) (output : String) : Replacement where
  pattern := boundary ++ lead ++ blanks
  output := [.text output]

/-- Other signs for the operators; `x` between digits multiplies. -/
def symbols : List Replacement := [
  { pattern := text "×", output := [.text "*"] },
  { pattern := text "÷", output := [.text "/"] },
  { pattern := text "**", output := [.text "^"] },
  { pattern := capture (one .digit) ++ blanks ++ text "x" ++ blanks ++ capture (one .digit)
    output := [.kept 0, .text "*", .kept 1]
    repeats := true }]

/-- The operators in words. Division comes first, because `dividido por` ends in a word for
multiplication. -/
def operatorWords : List Replacement := [
  wordReplacement
    ["divided by", "over", "dividido entre", "dividido por", "dividido", "entre"] " / ",
  wordReplacement ["multiplied by", "multiplicado por", "times", "por"] " * ",
  wordReplacement ["plus", "más", "mas"] " + ",
  wordReplacement ["minus", "menos"] " - "]

/-- Words and signs that are dropped. -/
def fillers : List Replacement := [
  wordReplacement ["what is", "what's", "how much is", "calculate", "equals",
    "cuánto es", "cuanto es", "calcular", "calcula", "igual a", "es"] "",
  { pattern := one (.oneOf ['=', '?', '¿', '!', '¡']), output := [] }]

/-- Phrases and notations that stand for a formula. -/
def meanings : List Replacement := [
  leadReplacement (anyOf ["el doble de", "doble de", "double of", "twice"]) "2 * ",
  leadReplacement (anyOf ["la mitad de", "mitad de", "half of"]) "0.5 * ",
  leadReplacement
    (optional (text "la ") ++ anyOf ["square root of", "raíz cuadrada de", "raiz cuadrada de"])
    "sqrt ",
  leadReplacement
    (optional (text "la ") ++
      anyOf ["cube root of", "cubic root of", "raíz cúbica de", "raiz cubica de"])
    "cbrt ",
  { pattern := keptNumeral ++ blanks ++ text "%" ++ blanks ++ anyOf ["of", "de"] ++ blanks ++
      keptNumeral
    output := [.text "(", .kept 0, .text "/100)*", .kept 1] },
  { pattern := keptNumeral ++ blanks ++ text "*" ++ blanks ++ text "10" ++ blanks ++ text "^" ++
      blanks ++ capture signedDigits
    output := [.text "(", .kept 0, .text " * pow(10,", .kept 1, .text "))"] },
  { pattern := keptNumeral ++ optional (one .blank) ++ text "e" ++ capture signedDigits ++ boundary
    output := [.text "(", .kept 0, .text " * pow(10,", .kept 1, .text "))"] },
  { pattern := keptNumeral ++ blanks ++ text "^" ++ blanks ++
      capture (optional (text "-") ++ numeral)
    output := [.text "pow(", .kept 0, .text ",", .kept 1, .text ")"] },
  { pattern := capture (one .digit) ++ blanks ++ capture (either (text "π") (text "pi" ++ boundary))
    output := [.kept 0, .text " * ", .kept 1] },
  { pattern := either (text "π") (boundary ++ text "pi" ++ boundary)
    output := [.text "3.141592653589793"] },
  { pattern := boundary ++ text "e" ++ boundary
    output := [.text "2.718281828459045"] }]

/-- All replacements in their order. -/
def rules : List Replacement :=
  symbols ++ operatorWords ++ fillers ++ meanings

/-- The text with the rules applied one after another. -/
def reworded (s : List Char) : List Char :=
  rules.foldl (fun t r => r.apply t) s

/-- The normal form of a text: lower case, reworded, with single spaces. -/
def normalForm (s : List Char) : List Char :=
  Text.collapse (reworded (Text.collapse (Text.lower s)))

end Reckon.Wording
