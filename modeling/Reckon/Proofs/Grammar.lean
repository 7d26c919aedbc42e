/-
The grammar of formulas: precedence climbing.

An expression of level `m` is a primary followed by binary operators of rank above `m`, each with an
expression of its own rank as right operand, folded to the left. A primary is a number, an
expression of level zero in parentheses, a minus sign with an expression of rank 3, a root with an
expression of rank 4, or a power `pow(a, b)` of two expressions of level zero.

* `Reads` : what an expression of some level takes from the front of a token list.
* `IsFormula` : the whole list is one expression.
* `Placed` : every token that begins an operand stands where an operand is due, and no other does.
* `Counted` : every closing parenthesis closes a call with the right number of arguments.
* `Reads.placed`, `Reads.counted` : formulas have both properties.
-/
import Reckon.Proofs.Expression

namespace Reckon.Formula

/-- `Reads m none ts t rest`: the expression of level `m` in front of `ts` is `t`, and it leaves
`rest`. `Reads m (some a) ts t rest`: the same where `a` has been read already and `ts` goes on with
the operators that take it as their left operand. Reading goes on as long as it can. -/
inductive Reads : Nat → Option Expr → List Token → Expr → List Token → Prop
  | number {m : Nat} {x : Float} {ts rest : List Token} {t : Expr}
      (more : Reads m (some (.number x)) ts t rest) :
      Reads m none (.number x :: ts) t rest
  | parens {m : Nat} {ts ts' rest : List Token} {a t : Expr}
      (inner : Reads 0 none ts a (.rightParen :: ts'))
      (more : Reads m (some a) ts' t rest) :
      Reads m none (.leftParen :: ts) t rest
  | negate {m : Nat} {ts ts' rest : List Token} {a t : Expr}
      (operand : Reads 3 none ts a ts')
      (more : Reads m (some (.negate a)) ts' t rest) :
      Reads m none (.negate :: ts) t rest
  | sqrt {m : Nat} {ts ts' rest : List Token} {a t : Expr}
      (operand : Reads 4 none ts a ts')
      (more : Reads m (some (.sqrt a)) ts' t rest) :
      Reads m none (.function .sqrt :: ts) t rest
  | cbrt {m : Nat} {ts ts' rest : List Token} {a t : Expr}
      (operand : Reads 4 none ts a ts')
      (more : Reads m (some (.cbrt a)) ts' t rest) :
      Reads m none (.function .cbrt :: ts) t rest
  | pow {m : Nat} {ts ts' ts'' rest : List Token} {a b t : Expr}
      (first : Reads 0 none ts a (.comma :: ts'))
      (second : Reads 0 none ts' b (.rightParen :: ts''))
      (more : Reads m (some (.pow a b)) ts'' t rest) :
      Reads m none (.function .pow :: .leftParen :: ts) t rest
  | binary {m : Nat} {op : BinaryOp} {ts ts' rest : List Token} {a b t : Expr}
      (above : m < op.rank)
      (operand : Reads op.rank none ts b ts')
      (more : Reads m (some (.binary op a b)) ts' t rest) :
      Reads m (some a) (.binary op :: ts) t rest
  | stop {m : Nat} {ts : List Token} {a : Expr}
      (below : ∀ op ts', ts = .binary op :: ts' → op.rank ≤ m) :
      Reads m (some a) ts a ts

/-- The whole list is one expression, the tree `t`. -/
def IsFormula (ts : List Token) (t : Expr) : Prop :=
  Reads 0 none ts t []

/-- The operators that an expression leaves unread are of its level or below. -/
theorem Reads.rank_le {m : Nat} {left : Option Expr} {ts rest : List Token} {t : Expr}
    (h : Reads m left ts t rest) (op : BinaryOp) (r : List Token) (hr : rest = .binary op :: r) :
    op.rank ≤ m := by
  induction h with
  | number _ ih => exact ih hr
  | parens _ _ _ ih => exact ih hr
  | negate _ _ _ ih => exact ih hr
  | sqrt _ _ _ ih => exact ih hr
  | cbrt _ _ _ ih => exact ih hr
  | pow _ _ _ _ _ ih => exact ih hr
  | binary _ _ _ _ ih => exact ih hr
  | stop below => exact below op r hr

/-! ### Where tokens stand -/

/-- The token is the first of an operand. -/
def Token.beginsOperand : Token → Bool
  | number _ => true
  | negate => true
  | function _ => true
  | leftParen => true
  | binary _ => false
  | rightParen => false
  | comma => false

/-- Behind the token `before`, if there is one, an operand begins exactly where one is due, and the
list does not end where one is due. -/
def Placed : Option Token → List Token → Prop
  | before, [] => Token.opensOperand before = false
  | before, t :: ts => t.beginsOperand = Token.opensOperand before ∧ Placed (some t) ts

/-- Given the commas that are still due in each open parenthesis, the innermost first: a parenthesis
behind `pow` gets one comma and any other none before it is closed, and `pow` is followed by one. -/
def Counted : List Nat → List Token → Prop
  | _, [] => True
  | due, .function .pow :: .leftParen :: ts => Counted (1 :: due) ts
  | _, .function .pow :: _ => False
  | due, .leftParen :: ts => Counted (0 :: due) ts
  | n :: due, .comma :: ts => 0 < n ∧ Counted ((n - 1) :: due) ts
  | n :: due, .rightParen :: ts => n = 0 ∧ Counted due ts
  | due, _ :: ts => Counted due ts

theorem Reads.placed {m : Nat} {left : Option Expr} {ts rest : List Token} {t : Expr}
    (h : Reads m left ts t rest) (before : Option Token)
    (hbefore : Token.opensOperand before = left.isNone)
    (hrest : ∀ b, Token.opensOperand b = false → Placed b rest) : Placed before ts := by
  induction h generalizing before with
  | number _ ih => exact ⟨hbefore.symm, ih _ rfl hrest⟩
  | parens _ _ ih ih' =>
    exact ⟨hbefore.symm, ih _ rfl fun b hb => ⟨hb.symm, ih' _ rfl hrest⟩⟩
  | negate _ _ ih ih' => exact ⟨hbefore.symm, ih _ rfl fun b hb => ih' b hb hrest⟩
  | sqrt _ _ ih ih' => exact ⟨hbefore.symm, ih _ rfl fun b hb => ih' b hb hrest⟩
  | cbrt _ _ ih ih' => exact ⟨hbefore.symm, ih _ rfl fun b hb => ih' b hb hrest⟩
  | pow _ _ _ ih ih' ih'' =>
    refine ⟨hbefore.symm, rfl, ih _ rfl fun b hb => ⟨hb.symm, ih' _ rfl fun b' hb' => ?_⟩⟩
    exact ⟨hb'.symm, ih'' _ rfl hrest⟩
  | binary _ _ _ ih ih' => exact ⟨hbefore.symm, ih _ rfl fun b hb => ih' b hb hrest⟩
  | stop _ => exact hrest before hbefore

theorem Reads.counted {m : Nat} {left : Option Expr} {ts rest : List Token} {t : Expr}
    (h : Reads m left ts t rest) (due : List Nat) (hrest : Counted due rest) : Counted due ts := by
  induction h generalizing due with
  | number _ ih => exact ih due hrest
  | parens _ _ ih ih' => exact ih (0 :: due) ⟨rfl, ih' due hrest⟩
  | negate _ _ ih ih' => exact ih due (ih' due hrest)
  | sqrt _ _ ih ih' => exact ih due (ih' due hrest)
  | cbrt _ _ ih ih' => exact ih due (ih' due hrest)
  | pow _ _ _ ih ih' ih'' =>
    exact ih (1 :: due) ⟨Nat.one_pos, ih' (0 :: due) ⟨rfl, ih'' due hrest⟩⟩
  | binary _ _ _ ih ih' => exact ih due (ih' due hrest)
  | stop _ => exact hrest

theorem IsFormula.placed {ts : List Token} {t : Expr} (h : IsFormula ts t) : Placed none ts :=
  Reads.placed h none rfl fun _ hb => hb

theorem IsFormula.counted {ts : List Token} {t : Expr} (h : IsFormula ts t) : Counted [] ts :=
  Reads.counted h [] trivial

end Reckon.Formula
