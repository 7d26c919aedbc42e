/-
The reordering agrees with precedence climbing.

The stack of waiting tokens plays the part of the calls that a climbing reader has open. An
expression of level `m` is read on top of waiting tokens that no operator of rank above `m` lets
out. Reading it sends part of its postorder out and leaves the rest waiting, and all that is left is
let out by whatever operator can follow. One thing reaches below: the closing parenthesis of an
operand lets out a function that waits directly under the opening one.

* `Yard.Blocks` : no operator above a rank lets out what waits on top.
* `Yard.Adds` : a state that differs from another by one expression read.
* `Yard.run_reads` : reading an expression adds it.
* `toPostfix_of_isFormula` : a formula comes out as the postorder of its tree.
-/
import Reckon.Proofs.Grammar

namespace Reckon.Formula

namespace Yard

/-- No operator of rank above `m` lets out the token that waits on top. -/
def Blocks (y : Yard) (m : Nat) : Prop :=
  ∀ op : BinaryOp, m < op.rank → ∀ q ∈ y.waiting.head?, Token.appliedBefore op q = false

/-- The tokens are let out by the operator that comes next, if one does. -/
def ReleasedBy (p rest : List Token) : Prop :=
  ∀ op r, rest = .binary op :: r → ∀ q ∈ p, Token.appliedBefore op q = true

/-- The state `y` is the state `base` with the expression `a` read and `rest` to come: `p` waits
above the tokens `w` that waited before. Where `q` is not empty it is a function that waited on top
and has gone out behind its operand. -/
def Adds (base : Yard) (a : Expr) (rest : List Token) (y : Yard) : Prop :=
  ∃ p q w, base.waiting = q ++ w ∧ y.waiting = p ++ w ∧
    y.out.reverse ++ p = base.out.reverse ++ a.postorder ++ q ∧
    (∀ s ∈ p, s.isLeftParen = false) ∧ ReleasedBy p rest ∧
    (q = [] ∨ ∃ f, q = [.function f] ∧ p = [])

/-- The state in which reading goes on: `base` itself, or `base` with a left operand read. -/
def StartsFrom (base : Yard) : Option Expr → List Token → Yard → Prop
  | none, _, y => y = base
  | some a, ts, y => Adds base a ts y

theorem run_cons {y z : Yard} {t : Token} (h : y.step t = .ok z) (ts : List Token) :
    y.run (t :: ts) = z.run ts := by
  rw [run, h]

/-! ### Single steps -/

theorem release_append {y : Yard} {p w : List Token} (f : Token → Bool) (hy : y.waiting = p ++ w)
    (hp : ∀ q ∈ p, f q = true) (hw : ∀ q ∈ w.head?, f q = false) :
    y.release f = ⟨p.reverse ++ y.out, w⟩ := by
  have htake : (p ++ w).takeWhile f = p := by
    rw [List.takeWhile_append_of_pos hp]
    cases w with
    | nil => simp
    | cons q w => simp [hw q rfl]
  have hdrop : (p ++ w).dropWhile f = w := by
    rw [List.dropWhile_append_of_pos hp]
    cases w with
    | nil => simp
    | cons q w => simp [hw q rfl]
  rw [release, hy, htake, hdrop]

theorem drain?_append {y : Yard} {p w : List Token} (hy : y.waiting = p ++ .leftParen :: w)
    (hp : ∀ q ∈ p, q.isLeftParen = false) :
    y.drain? = some ⟨p.reverse ++ y.out, .leftParen :: w⟩ := by
  have h : y.drained = ⟨p.reverse ++ y.out, .leftParen :: w⟩ := by
    apply release_append _ hy
    · intro q hq
      simp [hp q hq]
    · intro q hq
      cases hq
      rfl
  rw [drain?, h]

theorem step_comma {y : Yard} {p w : List Token} (hy : y.waiting = p ++ .leftParen :: w)
    (hp : ∀ q ∈ p, q.isLeftParen = false) :
    y.step .comma = .ok (hold .leftParen ⟨p.reverse ++ y.out, w⟩) := by
  rw [step, drain?_append hy hp]
  rfl

theorem step_rightParen {y : Yard} {p w : List Token} (hy : y.waiting = p ++ .leftParen :: w)
    (hp : ∀ q ∈ p, q.isLeftParen = false) :
    y.step .rightParen = .ok (closeParen ⟨p.reverse ++ y.out, .leftParen :: w⟩) := by
  rw [step, drain?_append hy hp]

/-- Closing a parenthesis lets out the function below it, if there is one. -/
theorem closeParen_cases (o w : List Token) :
    (∃ f w', w = .function f :: w' ∧
      closeParen ⟨o, .leftParen :: w⟩ = ⟨.function f :: o, w'⟩) ∨
    closeParen ⟨o, .leftParen :: w⟩ = ⟨o, w⟩ := by
  cases w with
  | nil => exact Or.inr rfl
  | cons q w =>
    cases q with
    | function f => exact Or.inl ⟨f, w, rfl, rfl⟩
    | number _ | binary _ | negate | leftParen | rightParen | comma => exact Or.inr rfl

/-! ### Blocking -/

theorem blocks_start (m : Nat) : start.Blocks m := by
  intro op _ q hq
  simp [start] at hq

theorem blocks_hold {t : Token} {m : Nat} (y : Yard)
    (h : ∀ op : BinaryOp, m < op.rank → Token.appliedBefore op t = false) :
    (y.hold t).Blocks m := by
  intro op hop q hq
  simp only [hold, List.head?_cons, Option.mem_def, Option.some.injEq] at hq
  subst hq
  exact h op hop

theorem blocks_hold_leftParen (m : Nat) (y : Yard) : (y.hold .leftParen).Blocks m :=
  blocks_hold y fun _ _ => rfl

theorem blocks_hold_negate (y : Yard) : (y.hold .negate).Blocks 3 := by
  apply blocks_hold
  intro op hop
  rw [Token.appliedBefore, decide_eq_false_iff_not, negateRank]
  omega

theorem blocks_hold_binary (y : Yard) (op : BinaryOp) : (y.hold (.binary op)).Blocks op.rank := by
  apply blocks_hold
  intro op' hop
  simpa [Token.appliedBefore] using hop

theorem rank_le_four (op : BinaryOp) : op.rank ≤ 4 := by
  cases op <;> decide

/-- No operator is of rank above 4. -/
theorem blocks_four (y : Yard) : y.Blocks 4 :=
  fun op hop => absurd (rank_le_four op) (by omega)

/-- Where an operator can still come, no function waits on top. -/
theorem Blocks.head_ne_function {y : Yard} {m : Nat} (h : y.Blocks m) {op : BinaryOp}
    (hop : m < op.rank) (f : Function) : y.waiting.head? ≠ some (.function f) := by
  intro hf
  have hb := h op hop _ hf
  exact absurd hb (by simp [Token.appliedBefore])

/-! ### Adding an expression -/

/-- Without a function on top, all that waited before still waits. -/
theorem Adds.waiting_eq {base y : Yard} {a : Expr} {rest : List Token} (h : Adds base a rest y)
    (hbase : ∀ f, base.waiting.head? ≠ some (.function f)) :
    ∃ p, y.waiting = p ++ base.waiting ∧
      y.out.reverse ++ p = base.out.reverse ++ a.postorder ∧
      (∀ s ∈ p, s.isLeftParen = false) ∧ ReleasedBy p rest := by
  obtain ⟨p, q, w, hw, hy, hout, hp, hrel, rfl | ⟨f, rfl, -⟩⟩ := h
  · rw [List.nil_append] at hw
    rw [List.append_nil] at hout
    exact ⟨p, by rw [hy, hw], hout, hp, hrel⟩
  · exact absurd (by rw [hw]; rfl) (hbase f)

/-- With nothing gone out below it, an expression that waits on top of `base` adds itself. -/
theorem adds_of_waiting {base y : Yard} {a : Expr} {p rest : List Token}
    (hy : y.waiting = p ++ base.waiting)
    (hout : y.out.reverse ++ p = base.out.reverse ++ a.postorder)
    (hp : ∀ s ∈ p, s.isLeftParen = false) (hrel : ReleasedBy p rest) : Adds base a rest y :=
  ⟨p, [], base.waiting, rfl, hy, by rw [hout, List.append_nil], hp, hrel, Or.inl rfl⟩

/-- An expression that has gone out as a whole adds itself. -/
theorem adds_of_out {base y : Yard} {a : Expr} {rest : List Token}
    (hy : y.waiting = base.waiting) (hout : y.out.reverse = base.out.reverse ++ a.postorder) :
    Adds base a rest y := by
  apply adds_of_waiting (p := [])
  · exact hy
  · rw [List.append_nil, hout]
  · simp
  · intro op r _ q hq
    simp at hq

theorem ReleasedBy.concat {p rest : List Token} {t : Token} (hp : ReleasedBy p rest)
    (ht : ∀ op r, rest = .binary op :: r → Token.appliedBefore op t = true) :
    ReleasedBy (p ++ [t]) rest := by
  intro op r hr q hq
  rcases List.mem_append.mp hq with hq | hq
  · exact hp op r hr q hq
  · rw [List.mem_singleton] at hq
    subst hq
    exact ht op r hr

/-- Behind the operand of a minus sign or a binary operator `t`, that operator waits below what is
left of the operand. -/
theorem adds_of_hold {base y : Yard} {a c : Expr} {t : Token} {o rest : List Token}
    (h : Adds ⟨o, t :: base.waiting⟩ a rest y)
    (hout : o.reverse ++ a.postorder ++ [t] = base.out.reverse ++ c.postorder)
    (hfun : t.isFunction = false) (hparen : t.isLeftParen = false)
    (ht : ∀ op r, rest = .binary op :: r → Token.appliedBefore op t = true) :
    Adds base c rest y := by
  obtain ⟨p, hy, hp_out, hp, hrel⟩ := h.waiting_eq (by
    intro f hf
    cases hf
    exact absurd hfun (by simp [Token.isFunction]))
  apply adds_of_waiting (p := p ++ [t])
  · rw [hy, List.append_assoc]
    rfl
  · rw [← List.append_assoc, hp_out, hout]
  · intro s hs
    rcases List.mem_append.mp hs with hs | hs
    · exact hp s hs
    · rw [List.mem_singleton] at hs
      rw [hs, hparen]
  · exact hrel.concat ht

/-- The same for a function, which may have gone out with its operand. -/
theorem adds_of_function {base y : Yard} {a c : Expr} {f : Function} {rest : List Token}
    (h : Adds (base.hold (.function f)) a rest y)
    (hpost : c.postorder = a.postorder ++ [.function f]) : Adds base c rest y := by
  obtain ⟨p, q, w, hw, hy, hout, hp, hrel, rfl | ⟨g, rfl, rfl⟩⟩ := h
  · have hw' : w = .function f :: base.waiting := hw.symm
    subst hw'
    apply adds_of_waiting (p := p ++ [.function f])
    · rw [hy, List.append_assoc]
      rfl
    · rw [List.append_nil] at hout
      rw [← List.append_assoc, hout, hpost, ← List.append_assoc]
      rfl
    · intro s hs
      rcases List.mem_append.mp hs with hs | hs
      · exact hp s hs
      · rw [List.mem_singleton] at hs
        rw [hs]
        rfl
    · exact hrel.concat fun _ _ _ => rfl
  · simp only [hold, List.singleton_append, List.cons.injEq, Token.function.injEq] at hw
    obtain ⟨rfl, rfl⟩ := hw
    apply adds_of_out hy
    rw [List.append_nil] at hout
    rw [hout, hpost, List.append_assoc]
    rfl

/-! ### Reading an expression -/

/-- Reading an expression of level `m` on top of tokens that block all operators above `m` adds the
expression to the state. -/
theorem run_reads {m : Nat} {left : Option Expr} {ts rest : List Token} {t : Expr}
    (h : Reads m left ts t rest) (base y : Yard) (hbase : base.Blocks m)
    (hy : StartsFrom base left ts y) :
    ∃ y', y.run ts = y'.run rest ∧ Adds base t rest y' := by
  induction h generalizing base y with
  | @number m x ts rest t more ih =>
    subst hy
    rw [run_cons (z := y.emit (.number x)) rfl]
    exact ih y _ hbase (adds_of_out rfl (by simp [emit, Expr.postorder]))
  | @parens m ts ts' rest a t inner more ih ih' =>
    subst hy
    rw [run_cons (z := y.hold .leftParen) rfl]
    obtain ⟨y₁, hrun, hadds⟩ := ih _ _ (blocks_hold_leftParen 0 y) rfl
    obtain ⟨p, hy₁, hout, hp, -⟩ := hadds.waiting_eq (by simp [hold])
    rw [hrun, run_cons (step_rightParen hy₁ hp)]
    refine ih' y _ hbase ?_
    have hout' : (p.reverse ++ y₁.out).reverse = y.out.reverse ++ a.postorder := by
      rw [List.reverse_append, List.reverse_reverse, hout]
      rfl
    -- the parenthesis may stand behind a function, which then goes out with it
    rcases closeParen_cases (p.reverse ++ y₁.out) y.waiting with ⟨f, w, hw, hclose⟩ | hclose
    · refine ⟨[], [.function f], w, hw, by rw [hclose]; rfl, ?_, by simp, ?_,
        Or.inr ⟨f, rfl, rfl⟩⟩
      · rw [hclose, List.append_nil, List.reverse_cons, hout']
      · intro _ _ _ q hq
        simp at hq
    · exact adds_of_out (by rw [hclose]) (by rw [hclose, hout'])
  | @negate m ts ts' rest a t operand more ih ih' =>
    subst hy
    rw [run_cons (z := y.hold .negate) rfl]
    obtain ⟨y₁, hrun, hadds⟩ := ih _ _ (blocks_hold_negate y) rfl
    rw [hrun]
    refine ih' y _ hbase (adds_of_hold hadds ?_ rfl rfl ?_)
    · rw [List.append_assoc]
      rfl
    · intro op r hr
      have hle := operand.rank_le op r hr
      rw [Token.appliedBefore, decide_eq_true_eq, negateRank]
      exact hle
  | @sqrt m ts ts' rest a t operand more ih ih' =>
    subst hy
    rw [run_cons (z := y.hold (.function .sqrt)) rfl]
    obtain ⟨y₁, hrun, hadds⟩ := ih _ _ (blocks_four _) rfl
    rw [hrun]
    exact ih' y _ hbase (adds_of_function hadds rfl)
  | @cbrt m ts ts' rest a t operand more ih ih' =>
    subst hy
    rw [run_cons (z := y.hold (.function .cbrt)) rfl]
    obtain ⟨y₁, hrun, hadds⟩ := ih _ _ (blocks_four _) rfl
    rw [hrun]
    exact ih' y _ hbase (adds_of_function hadds rfl)
  | @pow m ts ts' ts'' rest a b t first second more ih ih' ih'' =>
    subst hy
    rw [run_cons (z := y.hold (.function .pow)) rfl,
      run_cons (z := (y.hold (.function .pow)).hold .leftParen) rfl]
    obtain ⟨y₁, hrun, hadds⟩ := ih _ _ (blocks_hold_leftParen 0 _) rfl
    obtain ⟨p, hy₁, hout, hp, -⟩ := hadds.waiting_eq (by simp [hold])
    rw [hrun, run_cons (step_comma (w := .function .pow :: y.waiting) hy₁ hp)]
    obtain ⟨y₂, hrun', hadds'⟩ :=
      ih' (hold .leftParen ⟨p.reverse ++ y₁.out, .function .pow :: y.waiting⟩) _
        (blocks_hold_leftParen 0 _) rfl
    obtain ⟨p', hy₂, hout', hp', -⟩ := hadds'.waiting_eq (by simp [hold])
    rw [hrun', run_cons (step_rightParen hy₂ hp')]
    have hfirst : (p.reverse ++ y₁.out).reverse = y.out.reverse ++ a.postorder := by
      rw [List.reverse_append, List.reverse_reverse, hout]
      rfl
    have hsecond : (p'.reverse ++ y₂.out).reverse =
        (p.reverse ++ y₁.out).reverse ++ b.postorder := by
      rw [List.reverse_append, List.reverse_reverse, hout']
      rfl
    refine ih'' y _ hbase (adds_of_out rfl ?_)
    show (.function .pow :: (p'.reverse ++ y₂.out)).reverse = _
    rw [List.reverse_cons, hsecond, hfirst, Expr.postorder]
    simp only [List.append_assoc]
  | @binary m op ts ts' rest a b t above operand more ih ih' =>
    obtain ⟨p, hy_waiting, hy_out, hp, hrel⟩ := hy.waiting_eq (hbase.head_ne_function above)
    have hrelease := release_append (Token.appliedBefore op) hy_waiting
      (hrel op ts rfl) (hbase op above)
    have hstep : y.step (.binary op) = .ok ⟨p.reverse ++ y.out, .binary op :: base.waiting⟩ := by
      rw [step, hrelease]
      rfl
    rw [run_cons hstep]
    obtain ⟨y₁, hrun, hadds⟩ := ih ⟨p.reverse ++ y.out, .binary op :: base.waiting⟩ _
      (blocks_hold_binary ⟨_, base.waiting⟩ op) rfl
    rw [hrun]
    refine ih' base _ hbase (adds_of_hold hadds ?_ rfl rfl ?_)
    · rw [List.reverse_append, List.reverse_reverse, hy_out, Expr.postorder,
        List.append_assoc, List.append_assoc, List.append_assoc]
    · intro op' r hr
      have hle := operand.rank_le op' r hr
      simpa [Token.appliedBefore] using hle
  | stop below => exact ⟨y, rfl, hy⟩

end Yard

/-- A formula comes out as the postorder of its tree. -/
theorem toPostfix_of_isFormula {ts : List Token} {t : Expr} (h : IsFormula ts t) :
    toPostfix ts = .ok t.postorder := by
  obtain ⟨y, hrun, hadds⟩ := Yard.run_reads h .start .start (Yard.blocks_start 0) rfl
  obtain ⟨p, hy, hout, hp, -⟩ := hadds.waiting_eq (by simp [Yard.start])
  have hwaiting : y.waiting = p := by rw [hy, Yard.start, List.append_nil]
  rw [toPostfix, hrun]
  show y.finish = _
  rw [Yard.finish, hwaiting, if_neg, hout]
  · rfl
  · rw [Bool.not_eq_true, List.any_eq_false]
    intro s hs
    simp [hp s hs]

/-- The reordering and the stack machine together compute what precedence climbing reads: the
tokens of a formula come out in postorder, and the value of its tree is the answer when it is
finite and the reason for a refusal when it is not. -/
theorem evaluateTokens_climbs {ts : List Token} {t : Expr} (h : IsFormula ts t) :
    toPostfix ts = .ok t.postorder ∧
      evaluateTokens ts = if t.value.isFinite then .ok t.value else .error (.nonFinite t.value) :=
  ⟨toPostfix_of_isFormula h, evaluateTokens_of_toPostfix (toPostfix_of_isFormula h)⟩

/-- A minus sign in an exponent takes the powers behind it as its operand, and the product waits for
all of them. -/
theorem evaluateTokens_climbs_signed_exponent :
    IsFormula [.number 2, .binary .pow, .negate, .number 3, .binary .pow, .number 2, .binary .mul,
        .function .sqrt, .number 4]
      (.binary .mul
        (.binary .pow (.number 2) (.negate (.binary .pow (.number 3) (.number 2))))
        (.sqrt (.number 4))) ∧
    toPostfix [.number 2, .binary .pow, .negate, .number 3, .binary .pow, .number 2, .binary .mul,
        .function .sqrt, .number 4] =
      .ok [.number 2, .number 3, .number 2, .binary .pow, .negate, .binary .pow, .number 4,
        .function .sqrt, .binary .mul] ∧
    evaluateTokens [.number 2, .binary .pow, .negate, .number 3, .binary .pow, .number 2,
        .binary .mul, .function .sqrt, .number 4] = .ok 0.00390625 := by
  have h : IsFormula [.number 2, .binary .pow, .negate, .number 3, .binary .pow, .number 2,
        .binary .mul, .function .sqrt, .number 4]
      (.binary .mul
        (.binary .pow (.number 2) (.negate (.binary .pow (.number 3) (.number 2))))
        (.sqrt (.number 4))) := by
    have hthree : Reads 3 none [.number 3, .binary .pow, .number 2, .binary .mul, .function .sqrt,
        .number 4] (.binary .pow (.number 3) (.number 2))
        [.binary .mul, .function .sqrt, .number 4] := by
      refine .number (.binary (by decide) (.number (.stop ?_)) (.stop ?_)) <;>
      · rintro op ts' ⟨⟩
        decide
    have hroot : Reads 3 none [.function .sqrt, .number 4] (.sqrt (.number 4)) [] := by
      refine .sqrt (.number (.stop ?_)) (.stop ?_) <;> rintro op ts' ⟨⟩
    refine .number (.binary (by decide) (.negate hthree (.stop ?_))
      (.binary (by decide) hroot (.stop ?_)))
    · rintro op ts' ⟨⟩
      decide
    · rintro op ts' ⟨⟩
  obtain ⟨hpost, hvalue⟩ := evaluateTokens_climbs h
  refine ⟨h, hpost, ?_⟩
  rw [hvalue, if_pos (by decide +kernel)]
  congr 1
  decide +kernel
end Reckon.Formula
