/-
Expression trees.

A tree says which operator is applied to which operands; parentheses have no part in it. It has a
value and a written form, its tokens in postorder, and the stack machine that works off postfix
lists computes the one from the other.

* `Expr.value` : the value, from the leaves up.
* `Expr.postorder` : the operands of a node before the node.
* `run_postorder` : working off the postorder of a tree puts its value on the stack.
-/
import Reckon.Formula.Evaluate

namespace Reckon.Formula

/-- An expression. The power operator and the function for powers are different nodes. -/
inductive Expr
  | number (x : Float)
  | negate (a : Expr)
  | binary (op : BinaryOp) (a b : Expr)
  | sqrt (a : Expr)
  | cbrt (a : Expr)
  | pow (a b : Expr)

namespace Expr

/-- The value of an expression. -/
def value : Expr → Float
  | number x => x
  | negate a => -a.value
  | binary op a b => op.apply a.value b.value
  | sqrt a => a.value.sqrt
  | cbrt a => Number.cubeRoot a.value
  | pow a b => Number.power a.value b.value

/-- The tokens of an expression, every operator and function behind its operands. -/
def postorder : Expr → List Token
  | number x => [.number x]
  | negate a => a.postorder ++ [.negate]
  | binary op a b => a.postorder ++ b.postorder ++ [.binary op]
  | sqrt a => a.postorder ++ [.function .sqrt]
  | cbrt a => a.postorder ++ [.function .cbrt]
  | pow a b => a.postorder ++ b.postorder ++ [.function .pow]

end Expr

/-- The value of a tree is put on top of the stack, whatever is there and whatever follows. -/
theorem run_postorder (t : Expr) (vs : List Float) (ts : List Token) :
    run vs (t.postorder ++ ts) = run (t.value :: vs) ts := by
  induction t generalizing vs ts with
  | number x => rfl
  | negate a ih =>
    rw [Expr.postorder, List.append_assoc, ih]
    rfl
  | binary op a b iha ihb =>
    rw [Expr.postorder, List.append_assoc, List.append_assoc, iha, ihb]
    rfl
  | sqrt a ih =>
    rw [Expr.postorder, List.append_assoc, ih]
    rfl
  | cbrt a ih =>
    rw [Expr.postorder, List.append_assoc, ih]
    rfl
  | pow a b iha ihb =>
    rw [Expr.postorder, List.append_assoc, List.append_assoc, iha, ihb]
    rfl

theorem postfixValue_postorder (t : Expr) : postfixValue t.postorder = .ok t.value := by
  have h := run_postorder t [] []
  rw [List.append_nil] at h
  rw [postfixValue, h]
  rfl

/-- The three stages of an evaluation, a fault in one of the first two being the answer. -/
theorem evaluateTokens_eq (ts : List Token) :
    evaluateTokens ts =
      match toPostfix ts with
      | .error e => .error (.malformed e)
      | .ok ps =>
        match postfixValue ps with
        | .error e => .error (.malformed e)
        | .ok x => requireFinite x := by
  rw [evaluateTokens]
  cases toPostfix ts with
  | error e => rfl
  | ok ps =>
    show (orMalformed (postfixValue ps) >>= requireFinite) = _
    cases hx : postfixValue ps with
    | error e => simp only [hx]; rfl
    | ok x => simp only [hx]; rfl

/-- A token list whose postfix order is the postorder of a tree has the value of the tree, if that
is finite. -/
theorem evaluateTokens_of_toPostfix {ts : List Token} {t : Expr}
    (h : toPostfix ts = .ok t.postorder) : evaluateTokens ts = requireFinite t.value := by
  rw [evaluateTokens_eq, h]
  simp only [postfixValue_postorder]

end Reckon.Formula
