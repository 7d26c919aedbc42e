/-
Replaced powers and scientific notation have the values of what they replace.

A formula and the formula with its powers or its scientific notation replaced are moved through the
reordering next to each other. Where something has been replaced the two states part: in one,
operators wait that have gone out in the other. The token behind it brings them together again. What
has gone out is then worked off with the same result, and nothing below it has been touched.

* `Yard.outcome` : the stack of values that a state and the tokens to come end with.
* `Yard.outcome_congr` : only the stack that has been reached counts of what has gone out.
* `Yard.outcome_released` : what the next token lets out may as well have gone out before.
* `outcome_powers`, `outcome_grouped` : formulas with powers or scientific notation replaced have
  the same outcome.
-/
import Reckon.Proofs.Climbing
import Reckon.Proofs.PowerPass
import Reckon.Proofs.SignedProduct

namespace Reckon.Formula

namespace Yard

/-! ### What has gone out stays below -/

/-- The state with more tokens that have gone out before. -/
def above (o : List Token) (y : Yard) : Yard :=
  { y with out := y.out ++ o }

/-- The tokens in postfix order, from a state on. -/
def complete (y : Yard) (ts : List Token) : Except Fault (List Token) :=
  match y.run ts with
  | .ok y' => y'.finish
  | .error e => .error e

theorem release_above (o : List Token) (p : Token → Bool) (y : Yard) :
    (y.above o).release p = (y.release p).above o := by
  simp [above, release]

theorem drain?_above (o : List Token) (y : Yard) :
    (y.above o).drain? = y.drain?.map (above o) := by
  have hdrained : (y.above o).drained = y.drained.above o := release_above ..
  have hwaiting : (y.drained.above o).waiting = y.drained.waiting := rfl
  rw [drain?, drain?, hdrained, hwaiting]
  split <;> rfl

theorem closeParen_above (o : List Token) (y : Yard) :
    (y.above o).closeParen = y.closeParen.above o := by
  obtain ⟨out, w⟩ := y
  rcases w with - | ⟨q, - | ⟨f, w⟩⟩
  · rfl
  · rfl
  · simp only [above, closeParen]
    split <;> rfl

theorem step_above (o : List Token) (y : Yard) (t : Token) :
    (y.above o).step t = (y.step t).map (above o) := by
  cases t with
  | number _ | negate | function _ | leftParen => rfl
  | binary op =>
    rw [step, release_above]
    rfl
  | comma =>
    rw [step, step, drain?_above]
    cases y.drain? <;> rfl
  | rightParen =>
    rw [step, step, drain?_above]
    cases y.drain? with
    | none => rfl
    | some y' => exact congrArg Except.ok (closeParen_above o y')

theorem complete_above (o : List Token) (y : Yard) (ts : List Token) :
    (y.above o).complete ts = (y.complete ts).map (o.reverse ++ ·) := by
  induction ts generalizing y with
  | nil =>
    show (y.above o).finish = y.finish.map (o.reverse ++ ·)
    have hwaiting : (y.above o).waiting = y.waiting := rfl
    rw [finish, finish, hwaiting]
    split
    · rfl
    · simp [above, Except.map]
  | cons t ts ih =>
    rw [complete, complete, run, run, step_above]
    cases y.step t with
    | error e => rfl
    | ok y' => exact ih y'

/-! ### Outcomes -/

/-- The stack of values that a state ends with when more tokens come, if they can be reordered. -/
def outcome (y : Yard) (ts : List Token) : Except Fault (Except Fault (List Float)) :=
  (y.complete ts).map (Formula.run [])

theorem outcome_cons (y : Yard) (t : Token) (ts : List Token) :
    y.outcome (t :: ts) =
      match y.step t with
      | .ok y' => y'.outcome ts
      | .error e => .error e := by
  rw [outcome, complete, run]
  cases y.step t <;> rfl

theorem outcome_of_step {y z : Yard} {t : Token} (h : y.step t = .ok z) (ts : List Token) :
    y.outcome (t :: ts) = z.outcome ts := by
  rw [outcome_cons, h]

/-- Of what has gone out, only the stack of values counts that it leads to. -/
theorem outcome_congr {o o' : List Token} (w : List Token)
    (h : Formula.run [] o.reverse = Formula.run [] o'.reverse) (ts : List Token) :
    outcome ⟨o, w⟩ ts = outcome ⟨o', w⟩ ts := by
  have habove (o : List Token) : outcome ⟨o, w⟩ ts =
      (complete ⟨[], w⟩ ts).map fun ps => Formula.run [] (o.reverse ++ ps) := by
    have hcomplete := complete_above o ⟨[], w⟩ ts
    rw [above, List.nil_append] at hcomplete
    rw [outcome, hcomplete]
    cases complete ⟨[], w⟩ ts <;> rfl
  rw [habove, habove]
  simp only [run_append, h]

/-- Tokens that the next one lets out may as well have gone out before. -/
theorem step_released {o p w : List Token} {t : Token} (ht : t.beginsOperand = false)
    (hp : ∀ q ∈ p, q.isLeftParen = false)
    (hrel : ∀ op, t = .binary op → ∀ q ∈ p, Token.appliedBefore op q = true) :
    step ⟨o, p ++ w⟩ t = step ⟨p.reverse ++ o, w⟩ t := by
  have hrelease (f : Token → Bool) (hf : ∀ q ∈ p, f q = true) :
      release f ⟨o, p ++ w⟩ = release f ⟨p.reverse ++ o, w⟩ := by
    simp only [release]
    rw [List.takeWhile_append_of_pos hf, List.dropWhile_append_of_pos hf, List.reverse_append,
      List.append_assoc]
  have hdrain : drain? ⟨o, p ++ w⟩ = drain? ⟨p.reverse ++ o, w⟩ := by
    rw [drain?, drain?, drained, drained, hrelease _ fun q hq => by simp [hp q hq]]
  cases t with
  | number _ | negate | function _ | leftParen => cases ht
  | binary op => rw [step, step, hrelease _ (hrel op rfl)]
  | comma | rightParen => rw [step, step, hdrain]

theorem outcome_released {o p w ts : List Token} (hts : ∀ t ∈ ts.head?, t.beginsOperand = false)
    (hp : ∀ q ∈ p, q.isLeftParen = false) (hrel : ReleasedBy p ts) :
    outcome ⟨o, p ++ w⟩ ts = outcome ⟨p.reverse ++ o, w⟩ ts := by
  cases ts with
  | nil =>
    have hfinish : finish ⟨o, p ++ w⟩ = finish ⟨p.reverse ++ o, w⟩ := by
      have hany : p.any Token.isLeftParen = false := by simpa using hp
      simp [finish, List.any_append, hany]
    exact congrArg (Except.map (Formula.run [])) hfinish
  | cons t ts =>
    rw [outcome_cons, outcome_cons, step_released (hts t rfl) hp]
    rintro op rfl
    exact hrel op ts rfl

end Yard

/-- The answer to a formula whose value is a stack. -/
def answerOf : Except Fault (Except Fault (List Float)) → Except Error Float
  | .error e => .error (.malformed e)
  | .ok (.error e) => .error (.malformed e)
  | .ok (.ok [x]) => requireFinite x
  | .ok (.ok []) => .error (.malformed .empty)
  | .ok (.ok vs) => .error (.malformed (.leftOver vs.length))

theorem evaluateTokens_congr {ts ts' : List Token}
    (h : Yard.start.outcome ts = Yard.start.outcome ts') :
    evaluateTokens ts = evaluateTokens ts' := by
  have houtcome (ts : List Token) : evaluateTokens ts = answerOf (Yard.start.outcome ts) := by
    have hcomplete : toPostfix ts = Yard.start.complete ts := rfl
    rw [evaluateTokens_eq, Yard.outcome, hcomplete]
    cases Yard.start.complete ts with
    | error e => rfl
    | ok ps =>
      simp only [postfixValue, Except.map]
      rcases run [] ps with e | (- | ⟨x, - | ⟨x', vs⟩⟩) <;> rfl
  rw [houtcome, houtcome, h]

/-! ### What waits on top -/

/-- The token that waits on top where an operand begins behind the token `before`: behind a comma,
the parenthesis of the call. -/
def onTop : Option Token → Option Token
  | some .comma => some .leftParen
  | before => before

namespace Yard

/-- The state has just taken in the token `before`, if there is one. -/
def Behind (before : Option Token) (y : Yard) : Prop :=
  Token.opensOperand before = true → y.waiting.head? = onTop before

theorem behind_step {y z : Yard} {t : Token} (h : y.step t = .ok z) : z.Behind (some t) := by
  intro ht
  cases t with
  | number _ | rightParen => cases ht
  | negate | function _ | leftParen | binary _ =>
    cases h
    rfl
  | comma =>
    rw [step] at h
    cases hdrain : y.drain? with
    | none =>
      rw [hdrain] at h
      cases h
    | some y' =>
      rw [hdrain] at h
      cases h
      obtain ⟨w, hw⟩ := drain?_waiting hdrain
      rw [hw]
      rfl

/-- Behind anything but a power operator or a function, a power operator that comes next lets out
nothing where an operand begins. -/
theorem Behind.not_appliedBefore {before : Option Token} {y : Yard} (h : y.Behind before)
    (hopens : Token.opensOperand before = true) (hpow : before ≠ some (.binary .pow))
    (hfunction : ∀ f, before ≠ some (.function f)) :
    ∀ q ∈ y.waiting.head?, Token.appliedBefore .pow q = false := by
  intro q hq
  rw [h hopens] at hq
  rcases before with - | t
  · cases hq
  · cases t with
    | number _ | rightParen => cases hopens
    | function f => exact absurd rfl (hfunction f)
    | negate | leftParen | comma =>
      cases hq
      decide
    | binary op =>
      cases hq
      cases op <;> first | decide | exact absurd rfl hpow

/-- Minus signs wait on top, and below them nothing that a multiplication lets out. -/
def Leads (y : Yard) : Prop :=
  ∃ k w, y.waiting = List.replicate k .negate ++ w ∧
    ∀ q ∈ w.head?, Token.appliedBefore .mul q = false

theorem leads_of_head {y : Yard} (h : ∀ q ∈ y.waiting.head?, Token.appliedBefore .mul q = false) :
    y.Leads :=
  ⟨0, y.waiting, rfl, h⟩

theorem leads_step {lead : Bool} {y z : Yard} {l : Lexeme} (hy : lead = true → y.Leads)
    (h : y.step l.token = .ok z) (hlead : leadsAfter lead l = true) : z.Leads := by
  cases l with
  | number _ | function _ | rightParen => cases hlead
  | negate =>
    cases h
    obtain ⟨k, w, hw, hhead⟩ := hy hlead
    exact ⟨k + 1, w, by rw [hold, hw]; rfl, hhead⟩
  | binary op =>
    cases h
    refine leads_of_head fun q hq => ?_
    cases hq
    cases op <;> first | decide | cases hlead
  | leftParen =>
    cases h
    refine leads_of_head fun q hq => ?_
    cases hq
    rfl
  | comma =>
    have hhead := behind_step h rfl
    refine leads_of_head fun q hq => ?_
    rw [hhead] at hq
    cases hq
    rfl

end Yard

/-! ### Working off replaced powers -/

/-- The tokens of an exponent in postfix order. -/
def Exponent.postorder (e : Exponent) : List Token :=
  .number e.literal.value :: if e.negative then [.negate] else []

/-- The value of an exponent. -/
def Exponent.value (e : Exponent) : Float :=
  if e.negative then -e.literal.value else e.literal.value

theorem run_exponent (e : Exponent) (vs : List Float) (ts : List Token) :
    run vs (e.postorder ++ ts) = run (e.value :: vs) ts := by
  rw [Exponent.postorder, Exponent.value]
  cases e.negative <;> rfl

theorem run_negates (k : Nat) (x : Float) (vs : List Float) (ts : List Token) :
    run (x :: vs) (List.replicate k .negate ++ ts) = run ((fun x => -x)^[k] x :: vs) ts := by
  induction k generalizing x with
  | zero => rfl
  | succ k ih => exact ih (-x)

/-- Minus signs in front of a product may stand in front of its first factor. -/
theorem negates_mul (k : Nat) (x y : Float) :
    (fun x => -x)^[k] x * y = (fun x => -x)^[k] (x * y) := by
  induction k generalizing x with
  | zero => rfl
  | succ k ih =>
    rw [Function.iterate_succ_apply, Function.iterate_succ_apply, ih, Number.neg_mul_eq]

/-- The power operator and the function for powers are worked off in the same way. -/
theorem run_pow (vs : List Float) : run vs [.binary .pow] = run vs [.function .pow] := by
  rcases vs with - | ⟨a, - | ⟨b, vs⟩⟩ <;> rfl

/-- Signs, a literal, and a product with a power of `10` are worked off like the product with the
signs behind it. -/
theorem run_scientific (n ten : Float) (e : Exponent) (k : Nat) (vs : List Float) :
    run vs (.number n :: (List.replicate k .negate ++ (.number ten :: (e.postorder ++
      [.binary .pow, .binary .mul])))) =
    run vs (.number n :: .number ten :: (e.postorder ++
      (.function .pow :: .binary .mul :: List.replicate k .negate))) := by
  have hleft : run (n :: vs) (List.replicate k .negate ++ (.number ten :: (e.postorder ++
      [.binary .pow, .binary .mul]))) =
      .ok ((fun x => -x)^[k] n * Number.power ten e.value :: vs) := by
    rw [run_negates]
    show run (ten :: (fun x => -x)^[k] n :: vs) _ = _
    rw [run_exponent]
    rfl
  have hright : run (ten :: n :: vs) (e.postorder ++
      (.function .pow :: .binary .mul :: List.replicate k .negate)) =
      .ok ((fun x => -x)^[k] (n * Number.power ten e.value) :: vs) := by
    rw [run_exponent]
    show run (n * Number.power ten e.value :: vs) _ = _
    have hnegates := run_negates k (n * Number.power ten e.value) vs []
    rw [List.append_nil] at hnegates
    rw [hnegates]
    rfl
  show run (n :: vs) _ = run (ten :: n :: vs) _
  rw [hleft, hright, negates_mul]

theorem run_product_out (o : List Token) (x ten : Float) (e : Exponent) (k : Nat) :
    run [] (.binary .mul :: .binary .pow :: (e.postorder.reverse ++ .number ten ::
      ((List.replicate k Token.negate).reverse ++ .number x :: o))).reverse =
    run [] ((List.replicate k Token.negate).reverse ++ .binary .mul :: .function .pow ::
      (e.postorder.reverse ++ .number ten :: .number x :: o)).reverse := by
  have hleft : (Token.binary .mul :: .binary .pow :: (e.postorder.reverse ++ .number ten ::
      ((List.replicate k Token.negate).reverse ++ .number x :: o))).reverse =
      o.reverse ++ (.number x :: (List.replicate k .negate ++ (.number ten :: (e.postorder ++
        [.binary .pow, .binary .mul])))) := by
    simp
  have hright : ((List.replicate k Token.negate).reverse ++ .binary .mul :: .function .pow ::
      (e.postorder.reverse ++ .number ten :: .number x :: o)).reverse =
      o.reverse ++ (.number x :: .number ten :: (e.postorder ++
        (.function .pow :: .binary .mul :: List.replicate k .negate))) := by
    simp
  rw [hleft, hright, run_append, run_append]
  simp only [run_scientific]

/-! ### Taking in replaced powers -/

/-- The tokens go on with an operator or a mark, and not with a power operator. -/
def Unpowered (ts : List Token) : Prop :=
  ∀ t ∈ ts.head?, t.beginsOperand = false ∧ t ≠ .binary .pow

namespace Yard

theorem released_of_unpowered {p ts : List Token} (hts : Unpowered ts)
    (hp : ∀ q ∈ p, ∀ op : BinaryOp, op ≠ .pow → Token.appliedBefore op q = true) :
    ReleasedBy p ts := by
  rintro op r rfl q hq
  refine hp q hq op ?_
  rintro rfl
  exact (hts _ rfl).2 rfl

/-- What is let out by every operator but the power operator goes out. -/
theorem outcome_unpowered {o p w ts : List Token} (hts : Unpowered ts)
    (hp : ∀ q ∈ p, q.isLeftParen = false ∧
      ∀ op : BinaryOp, op ≠ .pow → Token.appliedBefore op q = true) :
    outcome ⟨o, p ++ w⟩ ts = outcome ⟨p.reverse ++ o, w⟩ ts :=
  outcome_released (fun t ht => (hts t ht).1) (fun q hq => (hp q hq).1)
    (released_of_unpowered hts fun q hq => (hp q hq).2)

theorem appliedBefore_of_ne_pow {op : BinaryOp} (hop : op ≠ .pow) :
    Token.appliedBefore op .negate = true ∧ Token.appliedBefore op (.binary .mul) = true ∧
      Token.appliedBefore op (.binary .pow) = true := by
  cases op <;> first | decide | exact absurd rfl hop

theorem outcome_exponent (o w : List Token) (e : Exponent) (sp : Bool) {ts : List Token}
    (hts : Unpowered ts) :
    outcome ⟨o, w⟩ (tokens (e.items sp) ++ ts) = outcome ⟨e.postorder.reverse ++ o, w⟩ ts := by
  rw [Exponent.items, Exponent.postorder]
  cases e.negative with
  | false => rfl
  | true =>
    refine outcome_unpowered (o := .number e.literal.value :: o) (p := [.negate]) hts ?_
    intro q hq
    rw [List.mem_singleton.mp hq]
    exact ⟨rfl, fun op hop => (appliedBefore_of_ne_pow hop).1⟩

/-- A power, where the operator lets out nothing. -/
theorem outcome_power (o : List Token) {w : List Token} (x : Float) (e : Exponent) (sp : Bool)
    {ts : List Token} (hw : ∀ q ∈ w.head?, Token.appliedBefore .pow q = false)
    (hts : Unpowered ts) :
    outcome ⟨o, w⟩ (.number x :: .binary .pow :: (tokens (e.items sp) ++ ts)) =
      outcome ⟨.binary .pow :: (e.postorder.reverse ++ .number x :: o), w⟩ ts := by
  have hstep : step ⟨.number x :: o, w⟩ (.binary .pow) =
      .ok ⟨.number x :: o, .binary .pow :: w⟩ := by
    rw [step, release_append (p := []) _ rfl (by simp) hw]
    rfl
  rw [outcome_of_step (z := ⟨.number x :: o, w⟩) rfl, outcome_of_step hstep,
    outcome_exponent _ _ e sp hts]
  refine outcome_unpowered (p := [.binary .pow]) hts fun q hq => ?_
  rw [List.mem_singleton.mp hq]
  exact ⟨rfl, fun op hop => (appliedBefore_of_ne_pow hop).2.2⟩

/-- A call of the function for powers. -/
theorem outcome_call (o w : List Token) (p : Power) (sp : Bool) (ts : List Token) :
    outcome ⟨o, w⟩ (tokens (p.items sp) ++ ts) =
      outcome ⟨.function .pow :: (p.exponent.postorder.reverse ++ .number p.base.value :: o), w⟩
        ts := by
  have htokens : tokens (p.items sp) ++ ts = .function .pow :: .leftParen ::
      .number p.base.value :: .comma :: (tokens (p.exponent.items false) ++ .rightParen :: ts) := by
    simp [Power.items, tokens, Lexeme.token]
  have hcomma : step ⟨.number p.base.value :: o, .leftParen :: .function .pow :: w⟩ .comma =
      .ok ⟨.number p.base.value :: o, .leftParen :: .function .pow :: w⟩ :=
    step_comma (p := []) rfl (by simp)
  have hclose : step ⟨p.exponent.postorder.reverse ++ .number p.base.value :: o,
        .leftParen :: .function .pow :: w⟩ .rightParen =
      .ok ⟨.function .pow :: (p.exponent.postorder.reverse ++ .number p.base.value :: o), w⟩ := by
    rw [step_rightParen (p := []) rfl (by simp)]
    rfl
  have hclosed : Unpowered (.rightParen :: ts) := by
    intro t ht
    cases ht
    exact ⟨rfl, by simp⟩
  rw [htokens, outcome_of_step (z := ⟨o, .function .pow :: w⟩) rfl,
    outcome_of_step (z := ⟨o, .leftParen :: .function .pow :: w⟩) rfl,
    outcome_of_step (z := ⟨.number p.base.value :: o, .leftParen :: .function .pow :: w⟩) rfl,
    outcome_of_step hcomma, outcome_exponent _ _ _ _ hclosed]
  exact outcome_of_step hclose ts

end Yard

theorem Lexeme.eq_of_token_binary {l : Lexeme} {op : BinaryOp} (h : l.token = .binary op) :
    l = .binary op := by
  cases l <;> cases h
  rfl

theorem Lexeme.eq_of_token_function {l : Lexeme} {f : Function} (h : l.token = .function f) :
    l = .function f := by
  cases l <;> cases h
  rfl

theorem exponent?_items (e : Exponent) (sp : Bool) (is : List Item) :
    exponent? (e.items sp ++ is) = some (e, is) := by
  obtain ⟨negative, n⟩ := e
  cases negative <;> rfl

theorem unpowered_of_placed {x : Float} {is : List Item} (h : Placed (some (.number x)) (tokens is))
    (hpow : ∀ j ∈ is.head?, j.lexeme ≠ .binary .pow) : Unpowered (tokens is) := by
  cases is with
  | nil => simp [Unpowered, tokens]
  | cons j js =>
    intro t ht
    cases ht
    exact ⟨h.1, fun hj => hpow j rfl (Lexeme.eq_of_token_binary hj)⟩

theorem Unchained.of_exponent {e : Exponent} {sp : Bool} {is : List Item}
    (h : Unchained (e.items sp ++ is)) : Unchained is := by
  rw [Exponent.items] at h
  cases hsign : e.negative with
  | false =>
    rw [hsign] at h
    exact h.2
  | true =>
    rw [hsign] at h
    exact h.2.2

theorem Unrooted.of_exponent {e : Exponent} {sp : Bool} {is : List Item}
    (h : Unrooted (e.items sp ++ is)) : Unrooted is := by
  rw [Exponent.items] at h
  cases hsign : e.negative with
  | false =>
    rw [hsign] at h
    exact h.2
  | true =>
    rw [hsign] at h
    exact h.2.2

/-- A formula with its powers replaced has the same outcome. -/
theorem outcome_powers {is is' : List Item} (h : Powers is is') (hchain : Unchained is)
    (hroot : Unrooted is) {before : Option Token} (hplaced : Placed before (tokens is))
    (hbefore : power? is ≠ none →
      before ≠ some (.binary .pow) ∧ ∀ f, before ≠ some (.function f))
    {y : Yard} (hy : y.Behind before) : y.outcome (tokens is) = y.outcome (tokens is') := by
  induction h generalizing before y with
  | nil => rfl
  | @keep i is is' hi h ih =>
    show y.outcome (i.lexeme.token :: tokens is) = y.outcome (i.lexeme.token :: tokens is')
    rw [Yard.outcome_cons, Yard.outcome_cons]
    cases hstep : y.step i.lexeme.token with
    | error e => rfl
    | ok z =>
      refine ih hchain.2 hroot.2 hplaced.2 (fun hpower => ⟨?_, ?_⟩) (Yard.behind_step hstep)
      · -- behind a power operator, the base of the power would be a chained exponent
        intro htoken
        obtain ⟨p, hp⟩ := Option.ne_none_iff_exists'.mp hpower
        obtain ⟨sp, sp₁, sp₂, rfl⟩ := items_of_power? hp
        have hl := Lexeme.eq_of_token_binary (Option.some.inj htoken)
        exact hchain.1 hl ⟨false, p.base⟩ _ rfl _ rfl rfl
      · intro f htoken
        exact hpower (hroot.1 f (Lexeme.eq_of_token_function (Option.some.inj htoken)))
  | @power i is is' p hp h ih =>
    have hsite := hbefore (by simp [hp])
    obtain ⟨sp, sp₁, sp₂, his⟩ := items_of_power? hp
    cases his
    have hrest : Placed (some (.number p.exponent.literal.value)) (tokens p.rest) :=
      Placed.of_exponent hplaced.2.2
    have hunpowered : Unpowered (tokens p.rest) :=
      unpowered_of_placed hrest (hchain.2.1 rfl p.exponent _ (exponent?_items ..))
    have hw := hy.not_appliedBefore hplaced.1.symm hsite.1 hsite.2
    obtain ⟨o, w⟩ := y
    have hrun : run [] (.binary .pow ::
          (p.exponent.postorder.reverse ++ .number p.base.value :: o)).reverse =
        run [] (.function .pow ::
          (p.exponent.postorder.reverse ++ .number p.base.value :: o)).reverse := by
      rw [List.reverse_cons, List.reverse_cons, run_append, run_append]
      simp only [run_pow]
    calc Yard.outcome ⟨o, w⟩ (.number p.base.value :: .binary .pow ::
          tokens (p.exponent.items sp₂ ++ p.rest))
        = Yard.outcome ⟨.binary .pow ::
            (p.exponent.postorder.reverse ++ .number p.base.value :: o), w⟩ (tokens p.rest) := by
          rw [tokens_append, Yard.outcome_power o _ _ _ hw hunpowered]
      _ = Yard.outcome ⟨.function .pow ::
            (p.exponent.postorder.reverse ++ .number p.base.value :: o), w⟩ (tokens p.rest) :=
          Yard.outcome_congr w hrun _
      _ = Yard.outcome ⟨.function .pow ::
            (p.exponent.postorder.reverse ++ .number p.base.value :: o), w⟩ (tokens is') := by
          refine ih hchain.2.2.of_exponent hroot.2.2.of_exponent hrest ?_ ?_
          · exact fun _ => ⟨by simp, by simp⟩
          · exact fun h => absurd h (by simp [Token.opensOperand])
      _ = Yard.outcome ⟨o, w⟩ (tokens (p.items sp ++ is')) := by
          rw [tokens_append, Yard.outcome_call]

/-! ### Taking in scientific notation -/

namespace Yard

/-- Scientific notation where a place leads: the product takes the signs with it. -/
theorem outcome_product (o : List Token) {w : List Token} (k : Nat) (x ten : Float) (e : Exponent)
    (sp : Bool) {ts : List Token} (hw : ∀ q ∈ w.head?, Token.appliedBefore .mul q = false)
    (hts : Unpowered ts) :
    outcome ⟨o, List.replicate k .negate ++ w⟩ (.number x :: .binary .mul :: .number ten ::
        .binary .pow :: (tokens (e.items sp) ++ ts)) =
      outcome ⟨.binary .mul :: .binary .pow :: (e.postorder.reverse ++ .number ten ::
        ((List.replicate k .negate).reverse ++ .number x :: o)), w⟩ ts := by
  have hmul : step ⟨.number x :: o, List.replicate k .negate ++ w⟩ (.binary .mul) =
      .ok ⟨(List.replicate k .negate).reverse ++ .number x :: o, .binary .mul :: w⟩ := by
    rw [step, release_append _ rfl (fun q hq => ?_) hw]
    · rfl
    · rw [List.eq_of_mem_replicate hq]
      rfl
  have htop : ∀ q ∈ (Token.binary .mul :: w).head?, Token.appliedBefore .pow q = false := by
    intro q hq
    cases hq
    rfl
  rw [outcome_of_step (z := ⟨.number x :: o, List.replicate k .negate ++ w⟩) rfl,
    outcome_of_step hmul, outcome_power _ ten e sp htop hts]
  refine outcome_unpowered (p := [.binary .mul]) hts fun q hq => ?_
  rw [List.mem_singleton.mp hq]
  exact ⟨rfl, fun op hop => (appliedBefore_of_ne_pow hop).2.1⟩

/-- The items that stand for scientific notation, where no function waits on top. -/
theorem outcome_scientificItems (o : List Token) {w : List Token} (n : Literal) (p : Power)
    (sp : Bool) (ts : List Token) (hw : ∀ f, w.head? ≠ some (.function f)) :
    outcome ⟨o, w⟩ (tokens (scientificItems n p sp) ++ ts) =
      outcome ⟨.binary .mul :: .function .pow :: (p.exponent.postorder.reverse ++
        .number p.base.value :: .number n.value :: o), w⟩ ts := by
  have htokens : tokens (scientificItems n p sp) ++ ts = .leftParen :: .number n.value ::
      .binary .mul :: (tokens (p.items true) ++ .rightParen :: ts) := by
    simp [scientificItems, tokens, Lexeme.token]
  have hmul : step ⟨.number n.value :: o, .leftParen :: w⟩ (.binary .mul) =
      .ok ⟨.number n.value :: o, .binary .mul :: .leftParen :: w⟩ := rfl
  have hclose : step ⟨.function .pow :: (p.exponent.postorder.reverse ++
        .number p.base.value :: .number n.value :: o), .binary .mul :: .leftParen :: w⟩
        .rightParen =
      .ok ⟨.binary .mul :: .function .pow :: (p.exponent.postorder.reverse ++
        .number p.base.value :: .number n.value :: o), w⟩ := by
    rw [step_rightParen (p := [.binary .mul]) rfl (by simp [Token.isLeftParen])]
    rcases closeParen_cases (.binary .mul :: .function .pow :: (p.exponent.postorder.reverse ++
        .number p.base.value :: .number n.value :: o)) w with ⟨f, w', rfl, -⟩ | hnone
    · exact absurd rfl (hw f)
    · exact congrArg Except.ok hnone
  rw [htokens, outcome_of_step (z := ⟨o, .leftParen :: w⟩) rfl,
    outcome_of_step (z := ⟨.number n.value :: o, .leftParen :: w⟩) rfl,
    outcome_of_step hmul, outcome_call]
  exact outcome_of_step hclose ts

end Yard

/-- A formula with its scientific notation replaced has the same outcome. -/
theorem outcome_grouped {lead : Bool} {is is' : List Item} (h : Grouped lead is is')
    (hchain : Unchained is) {before : Option Token} (hplaced : Placed before (tokens is))
    {y : Yard} (hy : lead = true → y.Leads) : y.outcome (tokens is) = y.outcome (tokens is') := by
  induction h generalizing before y with
  | nil => rfl
  | @keep lead i is is' hi h ih =>
    show y.outcome (i.lexeme.token :: tokens is) = y.outcome (i.lexeme.token :: tokens is')
    rw [Yard.outcome_cons, Yard.outcome_cons]
    cases hstep : y.step i.lexeme.token with
    | error e => rfl
    | ok z => exact ih hchain.2 hplaced.2 (Yard.leads_step hy hstep)
  | @group i is is' n p hs hwhole h ih =>
    obtain ⟨-, sp, sp₁, sp₂, sp₃, sp₄, his⟩ := items_of_scientific? hs
    cases his
    have hrest : Placed (some (.number p.exponent.literal.value)) (tokens p.rest) :=
      Placed.of_exponent hplaced.2.2.2.2
    have hunpowered : Unpowered (tokens p.rest) :=
      unpowered_of_placed hrest (hchain.2.2.2.1 rfl p.exponent _ (exponent?_items ..))
    obtain ⟨k, w, hwaiting, hw⟩ := hy rfl
    obtain ⟨o, waiting⟩ := y
    cases hwaiting
    have hnegates : ∀ q ∈ List.replicate k Token.negate, q.isLeftParen = false ∧
        ∀ op : BinaryOp, op ≠ .pow → Token.appliedBefore op q = true := by
      intro q hq
      rw [List.eq_of_mem_replicate hq]
      exact ⟨rfl, fun op hop => (Yard.appliedBefore_of_ne_pow hop).1⟩
    have hfunction : ∀ f, (List.replicate k Token.negate ++ w).head? ≠ some (.function f) := by
      intro f hf
      cases k with
      | zero => exact absurd (hw _ hf) (by simp [Token.appliedBefore])
      | succ k => cases hf
    calc Yard.outcome ⟨o, List.replicate k .negate ++ w⟩ (.number n.value :: .binary .mul ::
          .number p.base.value :: .binary .pow :: tokens (p.exponent.items sp₄ ++ p.rest))
        = Yard.outcome ⟨.binary .mul :: .binary .pow :: (p.exponent.postorder.reverse ++
            .number p.base.value :: ((List.replicate k .negate).reverse ++
              .number n.value :: o)), w⟩ (tokens p.rest) := by
          rw [tokens_append, Yard.outcome_product o k _ _ _ _ hw hunpowered]
      _ = Yard.outcome ⟨(List.replicate k .negate).reverse ++ .binary .mul :: .function .pow ::
            (p.exponent.postorder.reverse ++ .number p.base.value :: .number n.value :: o), w⟩
            (tokens p.rest) := Yard.outcome_congr w (run_product_out ..) _
      _ = Yard.outcome ⟨.binary .mul :: .function .pow :: (p.exponent.postorder.reverse ++
            .number p.base.value :: .number n.value :: o), List.replicate k .negate ++ w⟩
            (tokens p.rest) := (Yard.outcome_unpowered hunpowered hnegates).symm
      _ = Yard.outcome ⟨.binary .mul :: .function .pow :: (p.exponent.postorder.reverse ++
            .number p.base.value :: .number n.value :: o), List.replicate k .negate ++ w⟩
            (tokens is') := ih hchain.2.2.2.2.of_exponent hrest (by simp)
      _ = Yard.outcome ⟨o, List.replicate k .negate ++ w⟩
            (tokens (scientificItems n p sp ++ is')) := by
          rw [tokens_append, Yard.outcome_scientificItems o n p _ _ hfunction]

end Reckon.Formula
