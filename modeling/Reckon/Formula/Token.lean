/-
Tokens, the units that a formula is made of, and what can be wrong with a formula.

A formula has numbers, binary operators, the minus sign in front of an operand, functions, and the
marks `(`, `)` and `,`. Every operator has a rank; an operator of higher rank binds tighter.

* `BinaryOp.rank`, `negateRank` : the ranks.
* `BinaryOp.apply` : the value of an operator for two operands.
* `Token.appliedBefore` : whether an operator that waits is applied before a binary operator that
  comes in. Operators of equal rank, powers included, are applied from left to right.
* `Fault`, `Fault.message` : the ways in which a text or a token list fails to be a formula.
-/
import Reckon.Number.Power

namespace Reckon.Formula

/-- The operators with an operand on each side. -/
inductive BinaryOp
  | add
  | sub
  | mul
  | div
  | pow
  deriving Repr, DecidableEq

/-- The functions. -/
inductive Function
  | sqrt
  | cbrt
  | pow
  deriving Repr, DecidableEq

/-- A unit of a formula. -/
inductive Token
  | number (x : Float)
  | binary (op : BinaryOp)
  /-- The minus sign in front of an operand. -/
  | negate
  | function (f : Function)
  | leftParen
  | rightParen
  | comma
  deriving Repr

namespace BinaryOp

/-- How tightly the operator binds. -/
def rank : BinaryOp → Nat
  | add => 2
  | sub => 2
  | mul => 3
  | div => 3
  | pow => 4

/-- The operator that a character stands for. -/
def ofChar? : Char → Option BinaryOp
  | '+' => some add
  | '-' => some sub
  | '*' => some mul
  | '/' => some div
  | '^' => some pow
  | _ => none

/-- The value of the operator for a left and a right operand. A division by zero gives an infinity
or NaN. -/
def apply : BinaryOp → Float → Float → Float
  | add, a, b => a + b
  | sub, a, b => a - b
  | mul, a, b => a * b
  | div, a, b => a / b
  | pow, a, b => Number.power a b

end BinaryOp

/-- How tightly the minus sign in front of an operand binds. -/
def negateRank : Nat := 3

namespace Token

/-- The token makes a formula a calculation and not a bare number. -/
def isOperation : Token → Bool
  | binary _ => true
  | negate => true
  | function _ => true
  | _ => false

/-- The token is an opening parenthesis. -/
def isLeftParen : Token → Bool
  | leftParen => true
  | _ => false

/-- The token is a function. -/
def isFunction : Token → Bool
  | function _ => true
  | _ => false

/-- A minus or plus sign that comes next stands in front of an operand when this is the token before
it, if there is one. -/
def opensOperand : Option Token → Bool
  | none => true
  | some (binary _) => true
  | some negate => true
  | some (function _) => true
  | some leftParen => true
  | some comma => true
  | some (number _) => false
  | some rightParen => false

/-- This token, waiting for its operands, is applied before the binary operator that comes in: an
operator of at least the same rank, and any function. -/
def appliedBefore (incoming : BinaryOp) : Token → Bool
  | binary op => incoming.rank ≤ op.rank
  | negate => incoming.rank ≤ negateRank
  | function _ => true
  | _ => false

/-- The name of a mark in a message. -/
def markName : Token → String
  | leftParen => "LeftParen"
  | rightParen => "RightParen"
  | comma => "Comma"
  | _ => ""

end Token

/-- What is wrong with a text or a token list that is no formula. -/
inductive Fault
  /-- A character that no token has, with the count of bytes before it. -/
  | strayCharacter (c : Char) (position : Nat)
  /-- Letters that are no run of function names. -/
  | unknownName (letters : List Char)
  | strayComma
  | unexpectedRightParen
  | missingRightParen
  | missingOperand
  /-- A mark where only numbers, operators and functions can be. -/
  | strayMark (t : Token)
  | empty
  | leftOver (operands : Nat)
  deriving Repr

/-- The message for a fault. -/
def Fault.message : Fault → String
  | strayCharacter c position => s!"unexpected character '{c}' at position {position}"
  | unknownName letters => s!"unknown identifier '{String.ofList letters}'"
  | strayComma => "comma outside of a function call"
  | unexpectedRightParen => "unbalanced parentheses: unexpected ')'"
  | missingRightParen => "unbalanced parentheses: missing ')'"
  | missingOperand => "operator is missing an operand"
  | strayMark t => s!"unexpected {t.markName} in postfix sequence"
  | empty => "empty expression"
  | leftOver operands => s!"{operands} operands left without an operator"

end Reckon.Formula
