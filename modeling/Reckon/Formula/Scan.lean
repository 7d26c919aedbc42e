/-
From the text of a formula to its tokens.

Blanks do not count and are dropped first. What is left is read from the front. Digits make a
numeral, which takes a point only with a digit behind it. Letters make function names, any number of
them in a row. A minus sign where an operand begins is a sign, a plus sign there is dropped, and all
other characters are tokens of their own or stray.

* `functions?` : a run of letters as function names.
* `numeralAt` : the numeral in front of a text.
* `scan` : the tokens of a text.
-/
import Reckon.Text.Blank
import Reckon.Number.Numeral
import Reckon.Formula.Token

namespace Reckon.Formula

open Number

/-- The function names that a run of letters is made of. -/
def functions? : List Char → Option (List Function)
  | [] => some []
  | 's' :: 'q' :: 'r' :: 't' :: r => (functions? r).map (Function.sqrt :: ·)
  | 'c' :: 'b' :: 'r' :: 't' :: r => (functions? r).map (Function.cbrt :: ·)
  | 'p' :: 'o' :: 'w' :: r => (functions? r).map (Function.pow :: ·)
  | _ => none

/-- A numeral as written: the digits before its point and those behind it. -/
structure NumeralText where
  whole : List Char
  fraction : List Char

namespace NumeralText

/-- How many characters the numeral has. -/
def size (n : NumeralText) : Nat :=
  n.whole.length + if n.fraction.isEmpty then 0 else n.fraction.length + 1

/-- The number that the numeral denotes. -/
def value (n : NumeralText) : Float :=
  numeralValue n.whole n.fraction

end NumeralText

/-- The longest numeral in front of a text. -/
def numeralAt (s : List Char) : NumeralText :=
  let (whole, rest) := spanDigits s
  match rest with
  | '.' :: r => ⟨whole, (spanDigits r).1⟩
  | _ => ⟨whole, []⟩

/-- The token of a single character, if it has one, behind the tokens `before`, the latest first. A
plus sign in front of an operand is no token but no fault either. -/
def markAt (before : List Token) (c : Char) : Option (List Token) :=
  match c with
  | '(' => some [.leftParen]
  | ')' => some [.rightParen]
  | ',' => some [.comma]
  | c =>
    if c = '-' ∧ Token.opensOperand before.head? then some [.negate]
    else if c = '+' ∧ Token.opensOperand before.head? then some []
    else (BinaryOp.ofChar? c).map fun op => [.binary op]

/-- The tokens of a text, the latest first, of which `position` bytes are behind and have given the
tokens `before`. The first `skip` characters belong to a token that is there already. -/
def scanFrom (position : Nat) (before : List Token) : Nat → List Char → Except Fault (List Token)
  | _, [] => .ok before
  | skip + 1, c :: s => scanFrom (position + c.utf8Size) before skip s
  | 0, c :: s =>
    let next := position + c.utf8Size
    if c.isDigit then
      let n := numeralAt (c :: s)
      scanFrom next (.number n.value :: before) (n.size - 1) s
    else if c.isAlpha then
      let letters := (c :: s).takeWhile Char.isAlpha
      match functions? letters with
      | some fs => scanFrom next ((fs.map Token.function).reverse ++ before) (letters.length - 1) s
      | none => .error (.unknownName letters)
    else
      match markAt before c with
      | some ts => scanFrom next (ts ++ before) 0 s
      | none => .error (.strayCharacter c position)

/-- The tokens of a text. -/
def scan (s : List Char) : Except Fault (List Token) :=
  (scanFrom 0 [] 0 (Text.dropBlanks s)).map List.reverse

/-- The tokens have an operator or a function among them. -/
def isCalculation (ts : List Token) : Bool :=
  ts.any Token.isOperation

end Reckon.Formula
