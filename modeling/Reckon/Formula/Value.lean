/-
The value of a formula.

A token list in postfix order is worked off on a stack of values. The formula has a value when this
ends with exactly one; the value may still be an infinity or NaN.

* `step`, `run` : the stack after one token and after many.
* `postfixValue` : the value of a list in postfix order.
* `run_append` : a list can be worked off in two parts.
-/
import Reckon.Number.CubeRoot
import Reckon.Formula.Postfix
import Reckon.Formula.Scan

namespace Reckon.Formula

/-- The stack of values, the latest first, after one token. -/
def step : List Float → Token → Except Fault (List Float)
  | vs, .number x => .ok (x :: vs)
  | a :: vs, .negate => .ok (-a :: vs)
  | b :: a :: vs, .binary op => .ok (op.apply a b :: vs)
  | a :: vs, .function .sqrt => .ok (a.sqrt :: vs)
  | a :: vs, .function .cbrt => .ok (Number.cubeRoot a :: vs)
  | b :: a :: vs, .function .pow => .ok (Number.power a b :: vs)
  | _, .leftParen => .error (.strayMark .leftParen)
  | _, .rightParen => .error (.strayMark .rightParen)
  | _, .comma => .error (.strayMark .comma)
  | _, _ => .error .missingOperand

/-- The stack of values after many tokens. -/
def run (vs : List Float) : List Token → Except Fault (List Float)
  | [] => .ok vs
  | t :: ts =>
    match step vs t with
    | .ok vs' => run vs' ts
    | .error e => .error e

theorem run_append (vs : List Float) (ts us : List Token) :
    run vs (ts ++ us) = (run vs ts).bind fun vs' => run vs' us := by
  induction ts generalizing vs with
  | nil => rfl
  | cons t ts ih =>
    rw [List.cons_append, run, run]
    cases step vs t with
    | error e => rfl
    | ok vs' => exact ih vs'

/-- The value of a token list in postfix order. -/
def postfixValue (ts : List Token) : Except Fault Float :=
  match run [] ts with
  | .error e => .error e
  | .ok [x] => .ok x
  | .ok [] => .error .empty
  | .ok vs => .error (.leftOver vs.length)

end Reckon.Formula
