/-
The lists that the stack machine works off are the postorders of trees.

The machine can be run on trees in place of their values: a token takes its operands from the stack
and leaves the tree that has them below it. Written in postorder, the trees on the stack are the
tokens so far, and their values are the stack of values. So a list that leaves one value is the
postorder of a tree, and there is no second tree, since it would be grown from the same tokens.

Whether the operands of a token are there does not depend on the numbers, and neither does the
reordering. So a list is refused as malformed whatever its numbers are, or never.

* `grow`, `written` : stacks of trees and the tokens that they are grown from.
* `exists_trees_of_run` : the values on the stack are those of trees.
* `postorder_injective` : no two trees have the same postorder.
* `Token.shape` : a token without its number; `toPostfix_shape`, `evaluateTokens_shape` : faults
  depend on nothing else.
* `postfixValue_exact` : what the machine accepts, its value, and what a fault depends on.
-/
import Reckon.Proofs.Expression

namespace Reckon.Formula

/-! ### Stacks of trees -/

/-- The stack of trees, the latest first, after one more token, if its operands are there. -/
def grow : List Expr → Token → Option (List Expr)
  | us, .number x => some (.number x :: us)
  | a :: us, .negate => some (.negate a :: us)
  | b :: a :: us, .binary op => some (.binary op a b :: us)
  | a :: us, .function .sqrt => some (.sqrt a :: us)
  | a :: us, .function .cbrt => some (.cbrt a :: us)
  | b :: a :: us, .function .pow => some (.pow a b :: us)
  | _, _ => none

/-- The tokens that a stack of trees is grown from. -/
def written (us : List Expr) : List Token :=
  us.reverse.flatMap Expr.postorder

theorem written_cons (t : Expr) (us : List Expr) : written (t :: us) = written us ++ t.postorder := by
  simp [written]

/-- Growing a tree puts it on top of the stack, whatever is there and whatever follows. -/
theorem foldlM_grow_postorder (t : Expr) (us : List Expr) (ts : List Token) :
    (t.postorder ++ ts).foldlM grow us = ts.foldlM grow (t :: us) := by
  induction t generalizing us ts with
  | number x => rfl
  | negate a ih =>
    rw [Expr.postorder, List.append_assoc, ih]
    rfl
  | binary op a b iha ihb =>
    rw [Expr.postorder, List.append_assoc, List.append_assoc, iha, ihb]
    rfl
  | sqrt a ih =>
    rw [Expr.postorder, List.append_assoc, ih]
    rfl
  | cbrt a ih =>
    rw [Expr.postorder, List.append_assoc, ih]
    rfl
  | pow a b iha ihb =>
    rw [Expr.postorder, List.append_assoc, List.append_assoc, iha, ihb]
    rfl

theorem postorder_injective : Function.Injective Expr.postorder := by
  have hgrow (t : Expr) : t.postorder.foldlM grow [] = some [t] := by
    have h := foldlM_grow_postorder t [] []
    rwa [List.append_nil] at h
  intro t u h
  have hstack : some [t] = some [u] := by rw [← hgrow, ← hgrow, h]
  simpa using hstack

/-- A step on the values of trees is a step on the trees. -/
theorem exists_grow_of_step {us : List Expr} {t : Token} {vs : List Float}
    (h : step (us.map Expr.value) t = .ok vs) :
    ∃ us', grow us t = some us' ∧ vs = us'.map Expr.value := by
  cases t with
  | number x =>
    cases h
    exact ⟨_, rfl, rfl⟩
  | negate =>
    rcases us with - | ⟨a, us⟩
    · cases h
    · cases h
      exact ⟨_, rfl, rfl⟩
  | binary op =>
    rcases us with - | ⟨b, - | ⟨a, us⟩⟩
    · cases h
    · cases h
    · cases h
      exact ⟨_, rfl, rfl⟩
  | function f =>
    rcases us with - | ⟨b, - | ⟨a, us⟩⟩
    · cases f <;> cases h
    · cases f <;> cases h <;> exact ⟨_, rfl, rfl⟩
    · cases f <;> cases h <;> exact ⟨_, rfl, rfl⟩
  | leftParen | rightParen | comma => rcases us with - | ⟨b, - | ⟨a, us⟩⟩ <;> cases h

/-- A step writes its token behind the others. -/
theorem written_of_grow {us us' : List Expr} {t : Token} (h : grow us t = some us') :
    written us' = written us ++ [t] := by
  unfold grow at h
  split at h <;> cases h <;> simp [written_cons, Expr.postorder]

theorem exists_trees_of_run {us : List Expr} {ts : List Token} {vs : List Float}
    (h : run (us.map Expr.value) ts = .ok vs) :
    ∃ us', vs = us'.map Expr.value ∧ written us' = written us ++ ts := by
  induction ts generalizing us with
  | nil =>
    cases h
    exact ⟨us, rfl, (List.append_nil _).symm⟩
  | cons t ts ih =>
    rw [run] at h
    cases hstep : step (us.map Expr.value) t with
    | error e => simp [hstep] at h
    | ok vs' =>
      obtain ⟨us', hgrow, rfl⟩ := exists_grow_of_step hstep
      rw [hstep] at h
      obtain ⟨us'', hvs, hwritten⟩ := ih h
      refine ⟨us'', hvs, ?_⟩
      rw [hwritten, written_of_grow hgrow, List.append_assoc]
      rfl

theorem postfixValue_eq_ok_iff {ts : List Token} {v : Float} :
    postfixValue ts = .ok v ↔ ∃ t : Expr, t.postorder = ts ∧ t.value = v := by
  constructor
  · intro h
    have hrun : run [] ts = .ok [v] := by
      rw [postfixValue] at h
      split at h <;> cases h
      assumption
    obtain ⟨us, hvs, hwritten⟩ := @exists_trees_of_run [] ts [v] hrun
    -- one value on the stack is the value of one tree
    rcases us with - | ⟨t, - | ⟨u, us⟩⟩
    · cases hvs
    · simp only [List.map_cons, List.map_nil, List.cons.injEq, and_true] at hvs
      rw [written_cons] at hwritten
      exact ⟨t, hwritten, hvs.symm⟩
    · cases hvs
  · rintro ⟨t, rfl, rfl⟩
    exact postfixValue_postorder t

/-! ### Tokens without their numbers -/

/-- The token with zero in place of its number. -/
def Token.shape : Token → Token
  | .number _ => .number 0
  | t => t

namespace Yard

/-- The state with all its tokens without their numbers. -/
def shape (y : Yard) : Yard :=
  ⟨y.out.map Token.shape, y.waiting.map Token.shape⟩

theorem release_shape {p : Token → Bool} (hp : ∀ t : Token, p t.shape = p t) (y : Yard) :
    y.shape.release p = (y.release p).shape := by
  simp [release, shape, List.takeWhile_map, List.dropWhile_map, Function.comp_def, hp]

theorem drain?_shape (y : Yard) : y.shape.drain? = y.drain?.map shape := by
  have hdrained : y.shape.drained = y.drained.shape := by
    apply release_shape
    rintro (_ | _ | _ | _ | _ | _ | _) <;> rfl
  have hwaiting : y.drained.shape.waiting = y.drained.waiting.map Token.shape := rfl
  rw [drain?, drain?, hdrained, hwaiting]
  cases y.drained.waiting <;> rfl

theorem closeParen_shape (y : Yard) : y.shape.closeParen = y.closeParen.shape := by
  obtain ⟨o, w⟩ := y
  rcases w with - | ⟨q, - | ⟨f, w⟩⟩
  · rfl
  · rfl
  · cases f <;> rfl

theorem step_shape (y : Yard) (t : Token) : y.shape.step t.shape = (y.step t).map shape := by
  cases t with
  | number _ | negate | function _ | leftParen => rfl
  | binary op =>
    have hrelease : y.shape.release (Token.appliedBefore op) =
        (y.release (Token.appliedBefore op)).shape := by
      apply release_shape
      rintro (_ | _ | _ | _ | _ | _ | _) <;> rfl
    show Except.ok ((y.shape.release (Token.appliedBefore op)).hold (.binary op)) = _
    rw [hrelease]
    rfl
  | comma =>
    show y.shape.step .comma = _
    rw [step, step, drain?_shape]
    cases y.drain? <;> rfl
  | rightParen =>
    show y.shape.step .rightParen = _
    rw [step, step, drain?_shape]
    cases y.drain? with
    | none => rfl
    | some y' => exact congrArg Except.ok (closeParen_shape y')

theorem run_shape (y : Yard) (ts : List Token) :
    y.shape.run (ts.map Token.shape) = (y.run ts).map shape := by
  induction ts generalizing y with
  | nil => rfl
  | cons t ts ih =>
    rw [List.map_cons, run, run, step_shape]
    cases y.step t with
    | error e => rfl
    | ok y' => exact ih y'

theorem finish_shape (y : Yard) : y.shape.finish = y.finish.map (List.map Token.shape) := by
  have hany : y.shape.waiting.any Token.isLeftParen = y.waiting.any Token.isLeftParen := by
    have hcomp : Token.isLeftParen ∘ Token.shape = Token.isLeftParen := by
      funext t
      cases t <;> rfl
    rw [shape, List.any_map, hcomp]
  rw [finish, finish, hany]
  split
  · rfl
  · simp [shape, Except.map]

end Yard

/-- The reordering does not look at numbers. -/
theorem toPostfix_shape (ts : List Token) :
    toPostfix (ts.map Token.shape) = (toPostfix ts).map (List.map Token.shape) := by
  have hrun := Yard.run_shape .start ts
  rw [show Yard.start.shape = Yard.start from rfl] at hrun
  rw [toPostfix, toPostfix, hrun]
  cases Yard.start.run ts with
  | error e => rfl
  | ok y => exact Yard.finish_shape y

/-- The machine needs as many operands for a token as for its shape, and it leaves as many. -/
theorem step_length {vs ws : List Float} (h : vs.length = ws.length) (t : Token) :
    (step vs t).map List.length = (step ws t.shape).map List.length := by
  -- no token takes more than two values, so it does not matter how many lie below these
  rcases vs with - | ⟨b, - | ⟨a, vs⟩⟩ <;> rcases ws with - | ⟨b', - | ⟨a', ws⟩⟩ <;>
    simp only [List.length_cons, List.length_nil, Nat.add_right_cancel_iff,
      Nat.zero_ne_add_one, Nat.add_one_ne_zero] at h
  · rcases t with _ | _ | _ | (_ | _ | _) | _ | _ | _ <;> rfl
  · rcases t with _ | _ | _ | (_ | _ | _) | _ | _ | _ <;> rfl
  · rcases t with _ | _ | _ | (_ | _ | _) | _ | _ | _ <;> simp [step, Token.shape, Except.map, h]

theorem run_length {vs ws : List Float} (h : vs.length = ws.length) (ts : List Token) :
    (run vs ts).map List.length = (run ws (ts.map Token.shape)).map List.length := by
  induction ts generalizing vs ws with
  | nil => exact congrArg Except.ok h
  | cons t ts ih =>
    have hstep := step_length h t
    rw [List.map_cons, run, run]
    cases hvs : step vs t <;> cases hws : step ws t.shape <;> rw [hvs, hws] at hstep
    · simpa [Except.map] using hstep
    · cases hstep
    · cases hstep
    · exact ih (by simpa [Except.map] using hstep)

/-- The fault of a postfix list does not depend on its numbers. -/
theorem postfixValue_shape (ts : List Token) (fault : Fault) :
    postfixValue (ts.map Token.shape) = .error fault ↔ postfixValue ts = .error fault := by
  -- both runs fail alike, or they leave as many values, and one value is no fault
  have hlength := @run_length [] [] rfl ts
  rw [postfixValue, postfixValue]
  cases hrun : run [] ts with
  | error e =>
    cases hrun' : run [] (ts.map Token.shape) with
    | error e' =>
      simp only [hrun, hrun', Except.map, Except.error.injEq] at hlength
      rw [hlength]
    | ok ws => simp [hrun, hrun', Except.map] at hlength
  | ok vs =>
    cases hrun' : run [] (ts.map Token.shape) with
    | error e' => simp [hrun, hrun', Except.map] at hlength
    | ok ws =>
      simp only [hrun, hrun', Except.map, Except.ok.injEq] at hlength
      rcases vs with - | ⟨x, - | ⟨x', vs⟩⟩ <;> rcases ws with - | ⟨z, - | ⟨z', ws⟩⟩ <;>
        simp at hlength ⊢
      rw [hlength]

/-- What makes a list malformed: it cannot be reordered, or its postfix order cannot be worked
off. -/
theorem evaluateTokens_eq_malformed_iff {ts : List Token} {fault : Fault} :
    evaluateTokens ts = .error (.malformed fault) ↔ toPostfix ts = .error fault ∨
      ∃ ps, toPostfix ts = .ok ps ∧ postfixValue ps = .error fault := by
  rw [evaluateTokens_eq]
  cases toPostfix ts with
  | error e => simp
  | ok ps =>
    cases hvalue : postfixValue ps with
    | error e => simp [hvalue]
    | ok x =>
      simp only [hvalue, requireFinite]
      split <;> simp [hvalue]

theorem evaluateTokens_shape (ts : List Token) (fault : Fault) :
    evaluateTokens (ts.map Token.shape) = .error (.malformed fault) ↔
      evaluateTokens ts = .error (.malformed fault) := by
  rw [evaluateTokens_eq_malformed_iff, evaluateTokens_eq_malformed_iff, toPostfix_shape]
  cases toPostfix ts with
  | error e => simp [Except.map]
  | ok ps => simp [Except.map, postfixValue_shape]

/-! ### What the machine accepts -/

/-- The machine works off the postorders of trees and no other lists. Of such a list there is one
tree, and the answer is its value. Lists that differ in their numbers alone have the same fault, or
neither has one, when they are worked off and also when they are reordered before. -/
theorem postfixValue_exact :
    (∀ ts v, postfixValue ts = .ok v ↔
      ∃ t : Expr, t.postorder = ts ∧ (∀ u : Expr, u.postorder = ts → u = t) ∧ t.value = v) ∧
    (∀ ts, (∃ fault, postfixValue ts = .error fault) ↔ ¬ ∃ t : Expr, t.postorder = ts) ∧
    ∀ ts us, ts.map Token.shape = us.map Token.shape → ∀ fault,
      (postfixValue ts = .error fault ↔ postfixValue us = .error fault) ∧
      (evaluateTokens ts = .error (.malformed fault) ↔
        evaluateTokens us = .error (.malformed fault)) := by
  refine ⟨fun ts v => ?_, fun ts => ?_, fun ts us h fault => ⟨?_, ?_⟩⟩
  · rw [postfixValue_eq_ok_iff]
    constructor
    · rintro ⟨t, rfl, rfl⟩
      exact ⟨t, rfl, fun u hu => postorder_injective hu, rfl⟩
    · rintro ⟨t, hpost, -, hvalue⟩
      exact ⟨t, hpost, hvalue⟩
  · constructor
    · rintro ⟨fault, hfault⟩ ⟨t, rfl⟩
      rw [postfixValue_postorder] at hfault
      cases hfault
    · intro hnone
      cases hvalue : postfixValue ts with
      | error fault => exact ⟨fault, rfl⟩
      | ok v =>
        obtain ⟨t, hpost, -⟩ := postfixValue_eq_ok_iff.mp hvalue
        exact absurd ⟨t, hpost⟩ hnone
  · rw [← postfixValue_shape, h, postfixValue_shape]
  · rw [← evaluateTokens_shape, h, evaluateTokens_shape]

/-- Two operands without an operator are too many, whatever numbers they are. -/
theorem postfixValue_exact_leftOver :
    List.map Token.shape [.leftParen, .number 3, .rightParen, .leftParen, .number 4, .rightParen] =
      List.map Token.shape [.leftParen, .number (0 / 0), .rightParen, .leftParen, .number (-1),
        .rightParen] ∧
    evaluateTokens [.leftParen, .number (0 / 0), .rightParen, .leftParen, .number (-1),
      .rightParen] = .error (.malformed (.leftOver 2)) := by
  have hshape : List.map Token.shape
      [.leftParen, .number 3, .rightParen, .leftParen, .number 4, .rightParen] =
      List.map Token.shape [.leftParen, .number (0 / 0), .rightParen, .leftParen, .number (-1),
        .rightParen] := rfl
  exact ⟨hshape, ((postfixValue_exact.2.2 _ _ hshape (.leftOver 2)).2).mp rfl⟩

end Reckon.Formula
