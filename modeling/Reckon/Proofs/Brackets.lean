/-
What the reordering accepts, and that it loses nothing.

The reordering fails at a closing parenthesis or a comma outside of parentheses, and at the end when
a parenthesis is open. So it accepts a list exactly when its parentheses match and its commas stand
inside of them, which can be told by counting. It only moves tokens: what has gone out and what
waits are the tokens so far, the marks left out, and numbers do not wait for anything.

* `exists_toPostfix` : every bracketed list is accepted.
* `bracketed_iff` : bracketed lists by counts.
* `Yard.Accounts` : the tokens so far are what has gone out and what waits.
* `toPostfix_accepts` : both for all token lists.
-/
import Reckon.Proofs.Acceptance

namespace Reckon.Formula

/-! ### Bracketed lists are accepted -/

namespace Yard

/-- Draining does not fail where a parenthesis is open. -/
theorem exists_drain? {y : Yard} (h : 0 < y.depth) : ∃ z, y.drain? = some z := by
  rcases drained_waiting y with hw | ⟨w, hw⟩
  · rw [← depth_drained, depth, hw] at h
    exact absurd h (Nat.lt_irrefl 0)
  · exact ⟨y.drained, by rw [drain?, hw]⟩

theorem exists_step {y : Yard} {t : Token} {ts : List Token} (h : Bracketed y.depth (t :: ts)) :
    ∃ z, y.step t = .ok z ∧ Bracketed z.depth ts := by
  cases t with
  | number x => exact ⟨_, rfl, h⟩
  | function f => exact ⟨y.hold (.function f), rfl, h⟩
  | negate => exact ⟨y.hold .negate, rfl, h⟩
  | leftParen => exact ⟨y.hold .leftParen, rfl, by rwa [depth_hold]⟩
  | binary op =>
    refine ⟨_, rfl, ?_⟩
    rw [depth_hold, depth_release y _ fun t => not_leftParen_of_appliedBefore]
    exact h
  | comma =>
    obtain ⟨z, hz⟩ := exists_drain? h.1
    refine ⟨z, by rw [step, hz], ?_⟩
    rw [(depth_of_drain? hz).1]
    exact h.2
  | rightParen =>
    obtain ⟨z, hz⟩ := exists_drain? h.1
    obtain ⟨hdepth, w, hw⟩ := depth_of_drain? hz
    refine ⟨z.closeParen, by rw [step, hz], ?_⟩
    have hclose := depth_closeParen hw
    have hless : z.closeParen.depth = y.depth - 1 := by omega
    rw [hless]
    exact h.2

theorem exists_run {y : Yard} {ts : List Token} (h : Bracketed y.depth ts) :
    ∃ z, y.run ts = .ok z ∧ z.depth = 0 := by
  induction ts generalizing y with
  | nil => exact ⟨y, rfl, h⟩
  | cons t ts ih =>
    obtain ⟨y', hstep, hy'⟩ := exists_step h
    obtain ⟨z, hrun, hz⟩ := ih hy'
    exact ⟨z, by rw [run, hstep]; exact hrun, hz⟩

/-- The state can be finished when no parenthesis is open. -/
theorem finish_of_depth {y : Yard} (h : y.depth = 0) :
    y.finish = .ok (y.out.reverse ++ y.waiting) := by
  rw [depth, List.countP_eq_zero] at h
  rw [finish, if_neg]
  rw [Bool.not_eq_true, List.any_eq_false]
  exact h

end Yard

theorem exists_toPostfix {ts : List Token} (h : Bracketed 0 ts) : ∃ ps, toPostfix ts = .ok ps := by
  obtain ⟨z, hrun, hz⟩ := Yard.exists_run (y := .start) h
  exact ⟨_, by rw [toPostfix, hrun]; exact Yard.finish_of_depth hz⟩

/-! ### Counting parentheses -/

/-- The number of opening parentheses. -/
def opened (ts : List Token) : Nat :=
  ts.countP Token.isLeftParen

/-- The token is a closing parenthesis. -/
def Token.isRightParen : Token → Bool
  | rightParen => true
  | _ => false

/-- The number of closing parentheses. -/
def closed (ts : List Token) : Nat :=
  ts.countP Token.isRightParen

theorem opened_cons (t : Token) (ts : List Token) :
    opened (t :: ts) = opened ts + if t.isLeftParen then 1 else 0 :=
  List.countP_cons

theorem closed_cons (t : Token) (ts : List Token) :
    closed (t :: ts) = closed ts + if t.isRightParen then 1 else 0 :=
  List.countP_cons

/-- With `n` parentheses open before the list, no more are closed than opened anywhere in it, all of
them at its end, and at every comma one is open. -/
structure Matched (n : Nat) (ts : List Token) : Prop where
  le : ∀ p, p <+: ts → closed p ≤ n + opened p
  eq : closed ts = n + opened ts
  lt : ∀ p, p ++ [Token.comma] <+: ts → closed p < n + opened p

/-- The first token counts for all prefixes behind it. -/
theorem matched_cons {n m : Nat} {t : Token}
    (hm : m + (if t.isRightParen then 1 else 0) = n + if t.isLeftParen then 1 else 0)
    (ts : List Token) : Matched n (t :: ts) ↔ (t = .comma → 0 < n) ∧ Matched m ts := by
  constructor
  · rintro ⟨hle, heq, hlt⟩
    refine ⟨?_, ?_, ?_, ?_⟩
    · rintro rfl
      exact hlt [] ⟨ts, rfl⟩
    · intro p hp
      have h := hle (t :: p) (List.cons_prefix_cons.mpr ⟨rfl, hp⟩)
      rw [closed_cons, opened_cons] at h
      omega
    · rw [closed_cons, opened_cons] at heq
      omega
    · intro p hp
      have h := hlt (t :: p) (List.cons_prefix_cons.mpr ⟨rfl, hp⟩)
      rw [closed_cons, opened_cons] at h
      omega
  · rintro ⟨hcomma, hle, heq, hlt⟩
    refine ⟨?_, ?_, ?_⟩
    · intro p hp
      rcases List.prefix_cons_iff.mp hp with rfl | ⟨q, rfl, hq⟩
      · exact Nat.zero_le _
      · have h := hle q hq
        rw [closed_cons, opened_cons]
        omega
    · rw [closed_cons, opened_cons]
      omega
    · intro p hp
      cases p with
      | nil =>
        obtain ⟨rfl, -⟩ := List.cons_prefix_cons.mp hp
        exact hcomma rfl
      | cons s p =>
        obtain ⟨rfl, hp'⟩ := List.cons_prefix_cons.mp hp
        have h := hlt p hp'
        rw [closed_cons, opened_cons]
        omega

theorem bracketed_iff {n : Nat} {ts : List Token} : Bracketed n ts ↔ Matched n ts := by
  induction ts generalizing n with
  | nil =>
    constructor
    · rintro rfl
      refine ⟨?_, rfl, ?_⟩
      · intro p hp
        rw [List.prefix_nil.mp hp]
        exact Nat.zero_le _
      · intro p hp
        simp at hp
    · intro h
      exact h.eq.symm
  | cons t ts ih =>
    cases t with
    | leftParen => rw [Bracketed, ih, matched_cons (m := n + 1) rfl]; simp
    | number _ | binary _ | negate | function _ =>
      rw [matched_cons (m := n) rfl, ← ih]
      simp [Bracketed]
    | comma => rw [Bracketed, ih, matched_cons (m := n) rfl]; simp
    | rightParen =>
      cases n with
      | zero =>
        refine iff_of_false (fun h => absurd h.1 (Nat.lt_irrefl 0)) fun h => ?_
        exact absurd (h.le [.rightParen] ⟨ts, rfl⟩) (by decide)
      | succ n =>
        rw [Bracketed, ih, matched_cons (m := n) rfl]
        simp

/-! ### Nothing is lost -/

/-- The token is a parenthesis or a comma. -/
def Token.isMark : Token → Bool
  | leftParen => true
  | rightParen => true
  | comma => true
  | _ => false

/-- The token is a number. -/
def Token.isNumber : Token → Bool
  | number _ => true
  | _ => false

/-- The tokens that are no marks. -/
def unmarked (ts : List Token) : List Token :=
  ts.filter fun t => !t.isMark

/-- The numbers. -/
def numbers (ts : List Token) : List Token :=
  ts.filter Token.isNumber

theorem Token.not_mark_of_isOperation {t : Token} (h : t.isOperation = true) :
    t.isMark = false := by
  cases t <;> first | rfl | cases h

theorem Token.not_number_of_isOperation {t : Token} (h : t.isOperation = true) :
    t.isNumber = false := by
  cases t <;> first | rfl | cases h

theorem unmarked_append (ts us : List Token) : unmarked (ts ++ us) = unmarked ts ++ unmarked us :=
  List.filter_append ..

theorem numbers_append (ts us : List Token) : numbers (ts ++ us) = numbers ts ++ numbers us :=
  List.filter_append ..

theorem unmarked_eq_self {ts : List Token} (h : ∀ t ∈ ts, t.isMark = false) : unmarked ts = ts := by
  rw [unmarked, List.filter_eq_self]
  intro t ht
  rw [h t ht]
  rfl

theorem numbers_eq_nil {ts : List Token} (h : ∀ t ∈ ts, t.isNumber = false) : numbers ts = [] := by
  rw [numbers, List.filter_eq_nil_iff]
  intro t ht
  rw [h t ht]
  exact Bool.false_ne_true

namespace Yard

/-- The state after the tokens `ts`: opening parentheses, operators and functions wait, no mark has
gone out, each token but the marks is in one of the two places, and all numbers have gone out in
order. -/
structure Accounts (ts : List Token) (y : Yard) : Prop where
  waits : ∀ q ∈ y.waiting, q.isOperation = true ∨ q = .leftParen
  unmarked_out : ∀ q ∈ y.out, q.isMark = false
  perm : (y.out.reverse ++ unmarked y.waiting).Perm (unmarked ts)
  numbers_out : numbers y.out.reverse = numbers ts

theorem accounts_start : Accounts [] start :=
  ⟨nofun, nofun, .nil, rfl⟩

theorem Accounts.emit {ts : List Token} {y : Yard} (h : Accounts ts y) (x : Float) :
    Accounts (ts ++ [.number x]) (y.emit (.number x)) where
  waits := h.waits
  unmarked_out := List.forall_mem_cons.mpr ⟨rfl, h.unmarked_out⟩
  perm := by
    rw [unmarked_append]
    show ((Token.number x :: y.out).reverse ++ unmarked y.waiting).Perm (unmarked ts ++ [.number x])
    rw [List.reverse_cons, List.append_assoc]
    refine List.Perm.trans ?_ (h.perm.append_right [.number x])
    rw [List.append_assoc]
    exact List.perm_append_comm.append_left _
  numbers_out := by
    show numbers (Token.number x :: y.out).reverse = _
    rw [List.reverse_cons, numbers_append, numbers_append, h.numbers_out]

theorem Accounts.hold {ts : List Token} {y : Yard} (h : Accounts ts y) {t : Token}
    (ht : t.isOperation = true ∨ t = .leftParen) : Accounts (ts ++ [t]) (y.hold t) where
  waits := List.forall_mem_cons.mpr ⟨ht, h.waits⟩
  unmarked_out := h.unmarked_out
  perm := by
    rw [unmarked_append]
    show (y.out.reverse ++ unmarked ([t] ++ y.waiting)).Perm (unmarked ts ++ unmarked [t])
    rw [unmarked_append]
    refine List.Perm.trans ?_ (h.perm.append_right (unmarked [t]))
    rw [List.append_assoc]
    exact List.perm_append_comm.append_left _
  numbers_out := by
    have hnumber : numbers [t] = [] := by
      apply numbers_eq_nil
      intro s hs
      rw [List.mem_singleton.mp hs]
      rcases ht with ht | rfl
      · exact Token.not_number_of_isOperation ht
      · rfl
    rw [numbers_append, hnumber, List.append_nil]
    exact h.numbers_out

/-- Operators and functions that go out stay accounted for. -/
theorem Accounts.release {ts : List Token} {y : Yard} (h : Accounts ts y) {f : Token → Bool}
    (hf : ∀ t, f t = true → t.isLeftParen = false) : Accounts ts (y.release f) := by
  have hreleased : ∀ q ∈ y.waiting.takeWhile f, q.isOperation = true := by
    intro q hq
    rcases h.waits q (List.takeWhile_subset _ hq) with hop | rfl
    · exact hop
    · exact absurd (hf _ (List.all_eq_true.mp List.all_takeWhile _ hq)) (by decide)
  have hmark : ∀ q ∈ y.waiting.takeWhile f, q.isMark = false :=
    fun q hq => Token.not_mark_of_isOperation (hreleased q hq)
  have hnumber : ∀ q ∈ y.waiting.takeWhile f, q.isNumber = false :=
    fun q hq => Token.not_number_of_isOperation (hreleased q hq)
  have hout : (y.release f).out.reverse = y.out.reverse ++ y.waiting.takeWhile f := by
    rw [Yard.release, List.reverse_append, List.reverse_reverse]
  refine ⟨?_, ?_, ?_, ?_⟩
  · intro q hq
    exact h.waits q (List.dropWhile_subset _ hq)
  · intro q hq
    rcases List.mem_append.mp hq with hq | hq
    · exact hmark q (List.mem_reverse.mp hq)
    · exact h.unmarked_out q hq
  · have hsplit := congrArg unmarked (List.takeWhile_append_dropWhile (p := f) (l := y.waiting))
    rw [unmarked_append, unmarked_eq_self hmark] at hsplit
    rw [hout, List.append_assoc]
    show (y.out.reverse ++ (_ ++ unmarked (y.waiting.dropWhile f))).Perm _
    rw [hsplit]
    exact h.perm
  · rw [hout, numbers_append, numbers_eq_nil hnumber, List.append_nil]
    exact h.numbers_out

theorem Accounts.drain? {ts : List Token} {y z : Yard} (h : Accounts ts y)
    (hz : y.drain? = some z) : Accounts ts z := by
  rw [eq_drained_of_drain? hz]
  apply h.release
  intro t ht
  simpa using ht

/-- A mark is not accounted for. -/
theorem Accounts.concat_mark {ts : List Token} {y : Yard} (h : Accounts ts y) {t : Token}
    (ht : t.isMark = true) : Accounts (ts ++ [t]) y := by
  have hunmarked : unmarked [t] = [] := by simp [unmarked, ht]
  have hnumber : numbers [t] = [] := by
    cases t <;> first | rfl | cases ht
  refine ⟨h.waits, h.unmarked_out, ?_, ?_⟩
  · rw [unmarked_append, hunmarked, List.append_nil]
    exact h.perm
  · rw [numbers_append, hnumber, List.append_nil]
    exact h.numbers_out

theorem Accounts.closeParen {ts : List Token} {y : Yard} (h : Accounts ts y) {w : List Token}
    (hy : y.waiting = .leftParen :: w) : Accounts ts y.closeParen := by
  obtain ⟨o, w'⟩ := y
  cases hy
  have hwaits : ∀ q ∈ w, q.isOperation = true ∨ q = .leftParen :=
    fun q hq => h.waits q (List.mem_cons_of_mem _ hq)
  have hperm : (o.reverse ++ unmarked w).Perm (unmarked ts) := h.perm
  rcases closeParen_cases o w with ⟨f, w', rfl, hclose⟩ | hclose
  · -- a function goes from the top of what waits to the end of what has gone out
    rw [hclose]
    refine ⟨?_, ?_, ?_, ?_⟩
    · exact fun q hq => hwaits q (List.mem_cons_of_mem _ hq)
    · exact List.forall_mem_cons.mpr ⟨rfl, h.unmarked_out⟩
    · show ((Token.function f :: o).reverse ++ unmarked w').Perm _
      rw [List.reverse_cons, List.append_assoc]
      exact hperm
    · show numbers (Token.function f :: o).reverse = _
      rw [List.reverse_cons, numbers_append]
      exact (List.append_nil _).trans h.numbers_out
  · rw [hclose]
    exact ⟨hwaits, h.unmarked_out, hperm, h.numbers_out⟩

theorem Accounts.step {ts : List Token} {y z : Yard} (h : Accounts ts y) {t : Token}
    (hz : y.step t = .ok z) : Accounts (ts ++ [t]) z := by
  cases t with
  | number x =>
    cases hz
    exact h.emit x
  | function f =>
    cases hz
    exact h.hold (Or.inl rfl)
  | negate =>
    cases hz
    exact h.hold (Or.inl rfl)
  | leftParen =>
    cases hz
    exact h.hold (Or.inr rfl)
  | binary op =>
    cases hz
    exact (h.release fun t => not_leftParen_of_appliedBefore).hold (Or.inl rfl)
  | comma => exact (h.drain? (drain?_of_step_comma hz)).concat_mark rfl
  | rightParen =>
    obtain ⟨y', hdrain, rfl⟩ := drain?_of_step_rightParen hz
    obtain ⟨w, hw⟩ := drain?_waiting hdrain
    exact ((h.drain? hdrain).closeParen hw).concat_mark rfl

theorem Accounts.run {ts us : List Token} {y z : Yard} (h : Accounts ts y)
    (hz : y.run us = .ok z) : Accounts (ts ++ us) z := by
  induction us generalizing ts y with
  | nil =>
    cases hz
    rwa [List.append_nil]
  | cons u us ih =>
    rw [Yard.run] at hz
    cases hstep : y.step u with
    | error e => simp [hstep] at hz
    | ok y' =>
      rw [hstep] at hz
      rw [← List.singleton_append, ← List.append_assoc]
      exact ih (h.step hstep) hz

end Yard

/-- What has been reordered is all tokens but the marks, with the numbers in order. -/
theorem accounts_of_toPostfix {ts ps : List Token} (h : toPostfix ts = .ok ps) :
    ps.Perm (unmarked ts) ∧ numbers ps = numbers ts ∧ ∀ t ∈ ps, t.isMark = false := by
  obtain ⟨y, hrun, hopen, rfl⟩ := exists_run_of_toPostfix h
  obtain ⟨hwaits, hout, hperm, hnumbers⟩ := Yard.accounts_start.run hrun
  -- without open parentheses only operators and functions wait
  have hop : ∀ q ∈ y.waiting, q.isOperation = true := by
    intro q hq
    rcases hwaits q hq with h | rfl
    · exact h
    · exact absurd rfl (hopen _ hq)
  have hmark : ∀ q ∈ y.waiting, q.isMark = false :=
    fun q hq => Token.not_mark_of_isOperation (hop q hq)
  have hnumber : ∀ q ∈ y.waiting, q.isNumber = false :=
    fun q hq => Token.not_number_of_isOperation (hop q hq)
  refine ⟨?_, ?_, ?_⟩
  · rwa [unmarked_eq_self hmark] at hperm
  · rw [numbers_append, numbers_eq_nil hnumber, List.append_nil]
    exact hnumbers
  · intro q hq
    rcases List.mem_append.mp hq with hq | hq
    · exact hout q (List.mem_reverse.mp hq)
    · exact hmark q hq

/-- A list is reordered exactly when nowhere in it more parentheses are closed than opened, as many
are closed as opened in all, and one is open at every comma; otherwise it is refused as malformed.
Of a list that is reordered every token but the parentheses and commas comes out once, and the
numbers in order. -/
theorem toPostfix_accepts (ts : List Token) :
    ((∃ ps, toPostfix ts = .ok ps) ↔
      (∀ p, p <+: ts → closed p ≤ opened p) ∧ closed ts = opened ts ∧
        ∀ p, p ++ [Token.comma] <+: ts → closed p < opened p) ∧
    (∀ fault, toPostfix ts = .error fault → evaluateTokens ts = .error (.malformed fault)) ∧
    ∀ ps, toPostfix ts = .ok ps →
      ps.Perm (ts.filter fun t => !t.isMark) ∧
        ps.filter Token.isNumber = ts.filter Token.isNumber ∧ ∀ t ∈ ps, t.isMark = false := by
  refine ⟨?_, fun fault h => by rw [evaluateTokens_eq, h], fun ps h => accounts_of_toPostfix h⟩
  constructor
  · rintro ⟨ps, h⟩
    obtain ⟨hle, heq, hlt⟩ := bracketed_iff.mp (bracketed_of_toPostfix h)
    simp only [Nat.zero_add] at hle heq hlt
    exact ⟨hle, heq, hlt⟩
  · rintro ⟨hle, heq, hlt⟩
    refine exists_toPostfix (bracketed_iff.mpr ⟨?_, ?_, ?_⟩)
    · simpa only [Nat.zero_add] using hle
    · simpa only [Nat.zero_add] using heq
    · simpa only [Nat.zero_add] using hlt

end Reckon.Formula
