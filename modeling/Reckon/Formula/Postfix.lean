/-
Postfix order: every operator and function behind its operands.

Tokens are moved one by one. Numbers go out at once. Operators, functions and opening parentheses
wait on a stack. An incoming binary operator lets out what is applied before it; a comma lets out
what waits since the last opening parenthesis; a closing parenthesis does the same, takes the
parenthesis away, and lets out a function that stood before it.

* `Yard` : what has gone out and what waits.
* `toPostfix` : the tokens in postfix order.
* `Yard.drain?_waiting` : draining stops at an opening parenthesis or fails.
-/
import Reckon.Formula.Token

namespace Reckon.Formula

/-- The state of the reordering. -/
structure Yard where
  /-- The tokens that have gone out, the latest first. -/
  out : List Token
  /-- The tokens that wait, the latest first. -/
  waiting : List Token

namespace Yard

/-- Nothing has gone out and nothing waits. -/
def start : Yard := ⟨[], []⟩

/-- The token goes out. -/
def emit (t : Token) (y : Yard) : Yard :=
  { y with out := t :: y.out }

/-- The token has to wait. -/
def hold (t : Token) (y : Yard) : Yard :=
  { y with waiting := t :: y.waiting }

/-- The waiting tokens go out from the latest on, as long as the test holds. -/
def release (p : Token → Bool) (y : Yard) : Yard :=
  ⟨(y.waiting.takeWhile p).reverse ++ y.out, y.waiting.dropWhile p⟩

/-- All that waits since the last opening parenthesis goes out. -/
def drained (y : Yard) : Yard :=
  y.release fun t => !t.isLeftParen

/-- The drained state, if there is an opening parenthesis, which stays. -/
def drain? (y : Yard) : Option Yard :=
  match y.drained.waiting with
  | [] => none
  | _ :: _ => some y.drained

/-- The opening parenthesis on top is taken away, and a function below it goes out. -/
def closeParen (y : Yard) : Yard :=
  match y.waiting with
  | _ :: f :: w => if f.isFunction then ⟨f :: y.out, w⟩ else ⟨y.out, f :: w⟩
  | _ => { y with waiting := [] }

/-- The state after one more token. -/
def step (y : Yard) : Token → Except Fault Yard
  | .number x => .ok (y.emit (.number x))
  | .function f => .ok (y.hold (.function f))
  | .negate => .ok (y.hold .negate)
  | .leftParen => .ok (y.hold .leftParen)
  | .binary op => .ok ((y.release (Token.appliedBefore op)).hold (.binary op))
  | .comma =>
    match y.drain? with
    | some y' => .ok y'
    | none => .error .strayComma
  | .rightParen =>
    match y.drain? with
    | some y' => .ok y'.closeParen
    | none => .error .unexpectedRightParen

/-- The state after more tokens. -/
def run (y : Yard) : List Token → Except Fault Yard
  | [] => .ok y
  | t :: ts =>
    match y.step t with
    | .ok y' => run y' ts
    | .error e => .error e

/-- All that has gone out or waits, in order, when no parenthesis is left open. -/
def finish (y : Yard) : Except Fault (List Token) :=
  if y.waiting.any Token.isLeftParen then .error .missingRightParen
  else .ok (y.out.reverse ++ y.waiting)

theorem drained_waiting (y : Yard) :
    y.drained.waiting = [] ∨ ∃ w, y.drained.waiting = Token.leftParen :: w := by
  simp only [drained, release]
  cases hw : y.waiting.dropWhile fun t => !t.isLeftParen with
  | nil => exact Or.inl rfl
  | cons t w =>
    have ht := List.head?_dropWhile_not (fun t : Token => !t.isLeftParen) y.waiting
    rw [hw] at ht
    cases t <;> simp_all [Token.isLeftParen]

theorem drain?_waiting {y y' : Yard} (h : y.drain? = some y') :
    ∃ w, y'.waiting = Token.leftParen :: w := by
  rcases drained_waiting y with hw | ⟨w, hw⟩
  · simp [drain?, hw] at h
  · simp only [drain?, hw, Option.some.injEq] at h
    exact ⟨w, h ▸ hw⟩

end Yard

/-- The tokens in postfix order. -/
def toPostfix (ts : List Token) : Except Fault (List Token) :=
  match Yard.start.run ts with
  | .ok y => y.finish
  | .error e => .error e

end Reckon.Formula
