/-
Which token lists have an answer.

The reordering looks at brackets and commas only, and the stack machine only counts operands. A list
that both let through has its brackets closed and its commas inside of them. It is a formula exactly
when, besides, operands stand where operands are due and every closing parenthesis closes a call
with the right number of arguments, and nothing looks at these two.

* `Bracketed` : brackets are closed and commas stand inside of them.
* `bracketed_of_toPostfix` : the reordering lets no other list through.
* `CanRead`, `readsUpTo` : what precedence climbing can read, from these properties.
* `isFormula_iff` : the formulas among the lists that are not refused as malformed.
-/
import Reckon.Proofs.Climbing

namespace Reckon.Formula

/-- With `n` parentheses open before the list, every parenthesis is closed at its end, and a comma
stands only where one is open. -/
def Bracketed : Nat → List Token → Prop
  | n, [] => n = 0
  | n, .leftParen :: ts => Bracketed (n + 1) ts
  | n, .rightParen :: ts => 0 < n ∧ Bracketed (n - 1) ts
  | n, .comma :: ts => 0 < n ∧ Bracketed n ts
  | n, _ :: ts => Bracketed n ts

/-! ### Open parentheses in the reordering -/

/-- What an operator lets out is no opening parenthesis. -/
theorem not_leftParen_of_appliedBefore {op : BinaryOp} {t : Token}
    (h : Token.appliedBefore op t = true) : t.isLeftParen = false := by
  cases t with
  | leftParen => cases h
  | number _ | binary _ | negate | function _ | rightParen | comma => rfl

namespace Yard

theorem eq_drained_of_drain? {y z : Yard} (h : y.drain? = some z) : z = y.drained := by
  rw [drain?] at h
  split at h
  · cases h
  · exact (Option.some.inj h).symm

theorem drain?_of_step_comma {y z : Yard} (h : y.step .comma = .ok z) : y.drain? = some z := by
  rw [step] at h
  split at h
  · next hdrain =>
    cases h
    exact hdrain
  · cases h

theorem drain?_of_step_rightParen {y z : Yard} (h : y.step .rightParen = .ok z) :
    ∃ y', y.drain? = some y' ∧ z = y'.closeParen := by
  rw [step] at h
  split at h
  · next hdrain =>
    cases h
    exact ⟨_, hdrain, rfl⟩
  · cases h

/-- The number of parentheses that are open. -/
def depth (y : Yard) : Nat :=
  y.waiting.countP Token.isLeftParen

theorem depth_hold (y : Yard) (t : Token) :
    (y.hold t).depth = y.depth + if t.isLeftParen then 1 else 0 :=
  List.countP_cons

/-- Letting out what is no opening parenthesis leaves the parentheses open. -/
theorem depth_release (y : Yard) (f : Token → Bool) (hf : ∀ t, f t = true → t.isLeftParen = false) :
    (y.release f).depth = y.depth := by
  have hout : (y.waiting.takeWhile f).countP Token.isLeftParen = 0 := by
    rw [List.countP_eq_zero]
    intro t ht
    simp [hf t (List.all_eq_true.mp List.all_takeWhile t ht)]
  have hsplit : y.waiting.countP Token.isLeftParen =
      (y.waiting.takeWhile f).countP Token.isLeftParen +
        (y.waiting.dropWhile f).countP Token.isLeftParen := by
    rw [← List.countP_append, List.takeWhile_append_dropWhile]
  show (y.waiting.dropWhile f).countP Token.isLeftParen = y.waiting.countP Token.isLeftParen
  omega

theorem depth_drained (y : Yard) : y.drained.depth = y.depth := by
  apply depth_release
  intro t ht
  simpa using ht

/-- Draining succeeds only where a parenthesis is open. -/
theorem depth_of_drain? {y z : Yard} (h : y.drain? = some z) :
    z.depth = y.depth ∧ ∃ w, z.waiting = .leftParen :: w := by
  refine ⟨?_, drain?_waiting h⟩
  rw [eq_drained_of_drain? h, depth_drained]

theorem depth_closeParen {y : Yard} {w : List Token} (hy : y.waiting = .leftParen :: w) :
    y.closeParen.depth + 1 = y.depth := by
  obtain ⟨o, _⟩ := y
  cases hy
  rcases closeParen_cases o w with ⟨f, w', rfl, hclose⟩ | hclose
  · rw [hclose, depth, depth, List.countP_cons_of_pos rfl,
      List.countP_cons_of_neg Bool.false_ne_true]
  · rw [hclose, depth, depth, List.countP_cons_of_pos rfl]

/-- One step keeps count of the open parentheses. -/
theorem bracketed_of_step {y z : Yard} {t : Token} {ts : List Token} (h : y.step t = .ok z)
    (hz : Bracketed z.depth ts) : Bracketed y.depth (t :: ts) := by
  cases t with
  | number x =>
    cases h
    exact hz
  | function f =>
    cases h
    exact hz
  | negate =>
    cases h
    exact hz
  | leftParen =>
    cases h
    rwa [depth_hold] at hz
  | binary op =>
    cases h
    rwa [depth_hold, depth_release y _ fun t => not_leftParen_of_appliedBefore] at hz
  | comma =>
    obtain ⟨hdepth, w, hw⟩ := depth_of_drain? (drain?_of_step_comma h)
    have hpos := depth_closeParen hw
    rw [hdepth] at hz
    exact ⟨by omega, hz⟩
  | rightParen =>
    obtain ⟨y', hdrain, rfl⟩ := drain?_of_step_rightParen h
    obtain ⟨hdepth, w, hw⟩ := depth_of_drain? hdrain
    have hpos := depth_closeParen hw
    refine ⟨by omega, ?_⟩
    have hless : y.depth - 1 = y'.closeParen.depth := by omega
    rwa [hless]

theorem bracketed_of_run {y z : Yard} {ts : List Token} (h : y.run ts = .ok z)
    (hz : z.depth = 0) : Bracketed y.depth ts := by
  induction ts generalizing y with
  | nil =>
    cases h
    exact hz
  | cons t ts ih =>
    rw [run] at h
    cases hstep : y.step t with
    | error e => simp [hstep] at h
    | ok y' =>
      rw [hstep] at h
      exact bracketed_of_step hstep (ih h)

end Yard

/-- A list is reordered when no parenthesis waits at its end; then all that waits goes out. -/
theorem exists_run_of_toPostfix {ts ps : List Token} (h : toPostfix ts = .ok ps) :
    ∃ y, Yard.start.run ts = .ok y ∧ (∀ t ∈ y.waiting, ¬ t.isLeftParen = true) ∧
      ps = y.out.reverse ++ y.waiting := by
  rw [toPostfix] at h
  cases hrun : Yard.start.run ts with
  | error e => simp [hrun] at h
  | ok y =>
    simp only [hrun, Yard.finish] at h
    split at h
    · cases h
    · next hopen =>
      cases h
      rw [Bool.not_eq_true, List.any_eq_false] at hopen
      exact ⟨y, rfl, hopen, rfl⟩

/-- The reordering lets only lists through that are bracketed. -/
theorem bracketed_of_toPostfix {ts ps : List Token} (h : toPostfix ts = .ok ps) :
    Bracketed 0 ts := by
  obtain ⟨y, hrun, hopen, -⟩ := exists_run_of_toPostfix h
  exact Yard.bracketed_of_run hrun (List.countP_eq_zero.mpr hopen)

/-! ### Reading what has these properties -/

/-- The list can follow the token `before` in a formula in which parentheses are open and the
commas `due` still belong into them. -/
structure Readable (before : Option Token) (due : List Nat) (ts : List Token) : Prop where
  placed : Placed before ts
  counted : Counted due ts
  bracketed : Bracketed due.length ts

/-- A parenthesis in which no comma is due. -/
theorem Readable.parens {before : Option Token} {due : List Nat} {ts : List Token}
    (h : Readable before due (.leftParen :: ts)) : Readable (some .leftParen) (0 :: due) ts :=
  ⟨h.placed.2, h.counted, h.bracketed⟩

/-- The function for powers is followed by a parenthesis in which one comma is due. -/
theorem Readable.call {before : Option Token} {due : List Nat} {ts : List Token}
    (h : Readable before due (.function .pow :: ts)) :
    ∃ r, ts = .leftParen :: r ∧ Readable (some .leftParen) (1 :: due) r := by
  obtain ⟨hplaced, hcounted, hbracketed⟩ := h
  cases ts with
  | nil => cases hcounted
  | cons s r =>
    cases s with
    | leftParen => exact ⟨r, rfl, hplaced.2.2, hcounted, hbracketed⟩
    | number _ | binary _ | negate | function _ | rightParen | comma => cases hcounted

/-- Where an expression of level zero ends, no operator follows. -/
theorem not_binary_of_level_zero {left : Option Expr} {ts rest : List Token} {t : Expr}
    (h : Reads 0 left ts t rest) (op : BinaryOp) (r : List Token) : rest ≠ .binary op :: r := by
  intro hr
  have hle := h.rank_le op r hr
  cases op <;> exact absurd hle (by decide)

/-- Behind an operand of level zero comes the end of the list, a comma or a closing parenthesis. -/
theorem Readable.cases_of_level_zero {b : Option Token} {due : List Nat} {left : Option Expr}
    {ts rest : List Token} {t : Expr} (h : Readable b due rest) (hb : Token.opensOperand b = false)
    (hreads : Reads 0 left ts t rest) :
    rest = [] ∨ (∃ r, rest = .comma :: r) ∨ ∃ r, rest = .rightParen :: r := by
  cases rest with
  | nil => exact Or.inl rfl
  | cons s r =>
    have hs : s.beginsOperand = false := h.placed.1.trans hb
    cases s with
    | comma => exact Or.inr (Or.inl ⟨r, rfl⟩)
    | rightParen => exact Or.inr (Or.inr ⟨r, rfl⟩)
    | binary op => exact absurd rfl (not_binary_of_level_zero hreads op r)
    | number _ | negate | function _ | leftParen => cases hs

/-- In a parenthesis without commas due, the operand is followed by the closing parenthesis. -/
theorem Readable.closed {b : Option Token} {due : List Nat} {left : Option Expr}
    {ts rest : List Token} {t : Expr} (h : Readable b (0 :: due) rest)
    (hb : Token.opensOperand b = false) (hreads : Reads 0 left ts t rest) :
    ∃ r, rest = .rightParen :: r ∧ Readable (some .rightParen) due r := by
  rcases h.cases_of_level_zero hb hreads with rfl | ⟨r, rfl⟩ | ⟨r, rfl⟩
  · exact absurd h.bracketed (Nat.succ_ne_zero _)
  · exact absurd h.counted.1 (Nat.lt_irrefl 0)
  · exact ⟨r, rfl, h.placed.2, h.counted.2, h.bracketed.2⟩

/-- In a parenthesis with a comma due, the operand is followed by a comma. -/
theorem Readable.separated {b : Option Token} {due : List Nat} {left : Option Expr}
    {ts rest : List Token} {t : Expr} (h : Readable b (1 :: due) rest)
    (hb : Token.opensOperand b = false) (hreads : Reads 0 left ts t rest) :
    ∃ r, rest = .comma :: r ∧ Readable (some .comma) (0 :: due) r := by
  rcases h.cases_of_level_zero hb hreads with rfl | ⟨r, rfl⟩ | ⟨r, rfl⟩
  · exact absurd h.bracketed (Nat.succ_ne_zero _)
  · exact ⟨r, rfl, h.placed.2, h.counted.2, h.bracketed.2⟩
  · exact absurd h.counted.1 Nat.one_ne_zero

theorem Reads.length_le {m : Nat} {left : Option Expr} {ts rest : List Token} {t : Expr}
    (h : Reads m left ts t rest) : rest.length ≤ ts.length := by
  induction h with
  | number _ ih => exact Nat.le_succ_of_le ih
  | stop _ => exact Nat.le_refl _
  | parens _ _ ih ih' =>
    simp only [List.length_cons] at ih ⊢
    omega
  | negate _ _ ih ih' | sqrt _ _ ih ih' | cbrt _ _ ih ih' | binary _ _ _ ih ih' =>
    simp only [List.length_cons]
    omega
  | pow _ _ _ ih ih' ih'' =>
    simp only [List.length_cons] at ih ih' ⊢
    omega

/-- Reading `ts` at level `m` gives an expression, and what is left has these properties again. -/
def CanRead (m : Nat) (left : Option Expr) (due : List Nat) (ts : List Token) : Prop :=
  ∃ t rest b, Reads m left ts t rest ∧ Token.opensOperand b = false ∧ Readable b due rest

/-- What is read on from one place is read on from another one in front of it. -/
theorem CanRead.of_reads {m m' : Nat} {left left' : Option Expr} {due : List Nat}
    {ts ts' : List Token} (h : CanRead m' left' due ts')
    (hreads : ∀ {t rest}, Reads m' left' ts' t rest → Reads m left ts t rest) :
    CanRead m left due ts := by
  obtain ⟨t, rest, b, hmore, hrest⟩ := h
  exact ⟨t, rest, b, hreads hmore, hrest⟩

/-- Behind an operand, reading stops where no operator of a higher level follows. -/
theorem Readable.canRead_of_stop {before : Option Token} {due : List Nat} {ts : List Token}
    (h : Readable before due ts) (hbefore : Token.opensOperand before = false) {m : Nat} {a : Expr}
    (hstop : ∀ op ts', ts = .binary op :: ts' → op.rank ≤ m) : CanRead m (some a) due ts :=
  ⟨a, ts, before, .stop hstop, hbefore, h⟩

/-- Nothing is left to be read only behind an operand. -/
theorem Readable.canRead_nil {before : Option Token} {due : List Nat} (h : Readable before due [])
    {left : Option Expr} (hleft : Token.opensOperand before = left.isNone) (m : Nat) :
    CanRead m left due [] := by
  cases left with
  | none => exact absurd (hleft.symm.trans h.placed) (by decide)
  | some a => exact h.canRead_of_stop hleft (by rintro _ _ ⟨⟩)

/-- From every list of at most `n` tokens with these properties an expression of any level can be
read. -/
def ReadsUpTo (n : Nat) : Prop :=
  ∀ (m : Nat) (left : Option Expr) {before : Option Token} {due : List Nat} {ts : List Token},
    Readable before due ts → Token.opensOperand before = left.isNone → ts.length ≤ n →
    CanRead m left due ts

section UpTo

variable {n : Nat} {before : Option Token} {due : List Nat} {ts : List Token}

/-- An operand of level `k` is read, and then what follows it. -/
theorem ReadsUpTo.operand (hread : ReadsUpTo n) (h : Readable before due ts)
    (hbefore : Token.opensOperand before = true) (hlen : ts.length ≤ n) (k m : Nat)
    (build : Expr → Expr) :
    ∃ a ts', Reads k none ts a ts' ∧ CanRead m (some (build a)) due ts' := by
  obtain ⟨a, ts', before', hoperand, hbefore', h'⟩ := hread k none h hbefore hlen
  exact ⟨a, ts', hoperand, hread m _ h' hbefore' (Nat.le_trans hoperand.length_le hlen)⟩

/-- An operand in a parenthesis without commas due is read up to the closing parenthesis. -/
theorem ReadsUpTo.closed (hread : ReadsUpTo n) (h : Readable before (0 :: due) ts)
    (hbefore : Token.opensOperand before = true) (hlen : ts.length ≤ n) :
    ∃ a r, Reads 0 none ts a (.rightParen :: r) ∧ Readable (some .rightParen) due r ∧
      r.length ≤ n := by
  obtain ⟨a, ts', before', hinner, hbefore', h'⟩ := hread 0 none h hbefore hlen
  obtain ⟨r, rfl, hr⟩ := h'.closed hbefore' hinner
  exact ⟨a, r, hinner, hr, Nat.le_trans (Nat.le_of_succ_le hinner.length_le) hlen⟩

/-- An operand in a parenthesis with a comma due is read up to the comma. -/
theorem ReadsUpTo.separated (hread : ReadsUpTo n) (h : Readable before (1 :: due) ts)
    (hbefore : Token.opensOperand before = true) (hlen : ts.length ≤ n) :
    ∃ a r, Reads 0 none ts a (.comma :: r) ∧ Readable (some .comma) (0 :: due) r ∧
      r.length ≤ n := by
  obtain ⟨a, ts', before', hfirst, hbefore', h'⟩ := hread 0 none h hbefore hlen
  obtain ⟨r, rfl, hr⟩ := h'.separated hbefore' hfirst
  exact ⟨a, r, hfirst, hr, Nat.le_trans (Nat.le_of_succ_le hfirst.length_le) hlen⟩

/-- A function call is read together with what follows it. -/
theorem ReadsUpTo.canRead_function (hread : ReadsUpTo n) {f : Function}
    (h : Readable before due (.function f :: ts)) (hlen : ts.length ≤ n) (m : Nat) :
    CanRead m none due (.function f :: ts) := by
  cases f with
  | sqrt =>
    obtain ⟨a, ts', hoperand, hmore⟩ :=
      hread.operand ⟨h.placed.2, h.counted, h.bracketed⟩ rfl hlen 4 m .sqrt
    exact hmore.of_reads (.sqrt hoperand)
  | cbrt =>
    obtain ⟨a, ts', hoperand, hmore⟩ :=
      hread.operand ⟨h.placed.2, h.counted, h.bracketed⟩ rfl hlen 4 m .cbrt
    exact hmore.of_reads (.cbrt hoperand)
  | pow =>
    obtain ⟨r, rfl, hcall⟩ := h.call
    obtain ⟨a, r', hfirst, h', hlen'⟩ := hread.separated hcall rfl (Nat.le_of_succ_le hlen)
    obtain ⟨b, r'', hsecond, h'', hlen''⟩ := hread.closed h' rfl hlen'
    exact (hread m _ h'' rfl hlen'').of_reads (.pow hfirst hsecond)

/-- Where an operand is due, what begins with `s` can be read if all that is shorter can be. -/
theorem ReadsUpTo.canRead_none (hread : ReadsUpTo n) {s : Token}
    (h : Readable before due (s :: ts)) (hs : s.beginsOperand = true) (hlen : ts.length ≤ n)
    (m : Nat) : CanRead m none due (s :: ts) := by
  cases s with
  | number x =>
    have hnext : Readable (some (.number x)) due ts := ⟨h.placed.2, h.counted, h.bracketed⟩
    exact (hread m (some (.number x)) hnext rfl hlen).of_reads .number
  | negate =>
    obtain ⟨a, ts', hoperand, hmore⟩ :=
      hread.operand ⟨h.placed.2, h.counted, h.bracketed⟩ rfl hlen 3 m .negate
    exact hmore.of_reads (.negate hoperand)
  | leftParen =>
    obtain ⟨a, r, hinner, h', hlen'⟩ := hread.closed h.parens rfl hlen
    exact (hread m _ h' rfl hlen').of_reads (.parens hinner)
  | function f => exact hread.canRead_function h hlen m
  | binary _ | rightParen | comma => cases hs

/-- Behind an operand, what begins with `s` can be read if all that is shorter can be. -/
theorem ReadsUpTo.canRead_some (hread : ReadsUpTo n) {s : Token}
    (h : Readable before due (s :: ts)) (hbefore : Token.opensOperand before = false)
    (hs : s.beginsOperand = false) (hlen : ts.length ≤ n) (m : Nat) (a : Expr) :
    CanRead m (some a) due (s :: ts) := by
  cases s with
  | binary op =>
    by_cases hop : m < op.rank
    · have hnext : Readable (some (.binary op)) due ts := ⟨h.placed.2, h.counted, h.bracketed⟩
      obtain ⟨b, ts', hoperand, hmore⟩ := hread.operand hnext rfl hlen op.rank m (.binary op a)
      exact hmore.of_reads (.binary hop hoperand)
    · refine h.canRead_of_stop hbefore ?_
      rintro op' ts' ⟨⟩
      omega
  | rightParen | comma => exact h.canRead_of_stop hbefore (by rintro _ _ ⟨⟩)
  | number _ | negate | function _ | leftParen => cases hs

end UpTo

/-- From a list with these properties an expression of any level can be read, however long the list
is. -/
theorem readsUpTo (n : Nat) : ReadsUpTo n := by
  induction n with
  | zero =>
    intro m left before due ts h hleft hlen
    obtain rfl := List.length_eq_zero_iff.mp (Nat.le_zero.mp hlen)
    exact h.canRead_nil hleft m
  | succ n ih =>
    intro m left before due ts h hleft hlen
    cases ts with
    | nil => exact h.canRead_nil hleft m
    | cons s ts =>
      have hs : s.beginsOperand = left.isNone := h.placed.1.trans hleft
      cases left with
      | none => exact ih.canRead_none h hs (Nat.le_of_succ_le_succ hlen) m
      | some a => exact ih.canRead_some h hleft hs (Nat.le_of_succ_le_succ hlen) m a

/-! ### The lists that are not refused -/

/-- The list is not refused as malformed. Its value may still be an infinity or NaN. -/
def Answered (ts : List Token) : Prop :=
  ∀ fault, evaluateTokens ts ≠ .error (.malformed fault)

theorem IsFormula.answered {ts : List Token} {t : Expr} (h : IsFormula ts t) : Answered ts := by
  intro fault
  rw [evaluateTokens_of_toPostfix (toPostfix_of_isFormula h), requireFinite]
  by_cases hfinite : t.value.isFinite = true
  · rw [if_pos hfinite]
    exact nofun
  · rw [if_neg hfinite]
    exact nofun

theorem Answered.bracketed {ts : List Token} (h : Answered ts) : Bracketed 0 ts := by
  cases hpost : toPostfix ts with
  | error fault => exact absurd (by rw [evaluateTokens_eq, hpost]) (h fault)
  | ok ps => exact bracketed_of_toPostfix hpost

/-- A list that can be read behind nothing, with no parenthesis open, is one expression. -/
theorem Readable.isFormula {ts : List Token} (h : Readable none [] ts) : ∃ t, IsFormula ts t := by
  obtain ⟨t, rest, b, hreads, hb, hrest⟩ := readsUpTo ts.length 0 none h rfl (Nat.le_refl _)
  rcases hrest.cases_of_level_zero hb hreads with rfl | ⟨r, rfl⟩ | ⟨r, rfl⟩
  · exact ⟨t, hreads⟩
  · exact absurd hrest.bracketed.1 (Nat.lt_irrefl 0)
  · exact absurd hrest.bracketed.1 (Nat.lt_irrefl 0)

/-- The formulas are the lists that are not refused as malformed, in which operands stand where
operands are due and nowhere else, and every function has its own number of arguments. -/
theorem isFormula_iff (ts : List Token) :
    (∃ t, IsFormula ts t) ↔ Answered ts ∧ Placed none ts ∧ Counted [] ts := by
  constructor
  · rintro ⟨t, h⟩
    exact ⟨h.answered, h.placed, h.counted⟩
  · rintro ⟨hanswered, hplaced, hcounted⟩
    exact Readable.isFormula ⟨hplaced, hcounted, hanswered.bracketed⟩

/-- Not all lists that are answered are formulas. In `3 pow(2)` the base is taken from before the
call and the square of 3 is the answer; in `pow((2, 3))` all operands stand where operands are due,
but both belong to one argument. -/
theorem answered_of_no_formula :
    (evaluateTokens [.number 3, .function .pow, .leftParen, .number 2, .rightParen] = .ok 9 ∧
      ¬ ∃ t, IsFormula [.number 3, .function .pow, .leftParen, .number 2, .rightParen] t) ∧
    (evaluateTokens [.function .pow, .leftParen, .leftParen, .number 2, .comma, .number 3,
        .rightParen, .rightParen] = .ok 8 ∧
      Placed none [.function .pow, .leftParen, .leftParen, .number 2, .comma, .number 3,
        .rightParen, .rightParen] ∧
      ¬ ∃ t, IsFormula [.function .pow, .leftParen, .leftParen, .number 2, .comma, .number 3,
        .rightParen, .rightParen] t) := by
  refine ⟨⟨?_, ?_⟩, ?_, ?_, ?_⟩
  · show requireFinite (Number.power 3 2) = .ok 9
    rw [requireFinite, if_pos (by decide +kernel)]
    exact congrArg _ (by decide +kernel)
  · rintro ⟨t, h⟩
    exact absurd h.placed.2.1 (by decide)
  · show requireFinite (Number.power 2 3) = .ok 8
    rw [requireFinite, if_pos (by decide +kernel)]
    exact congrArg _ (by decide +kernel)
  · exact ⟨rfl, rfl, rfl, rfl, rfl, rfl, rfl, rfl, rfl⟩
  · rintro ⟨t, h⟩
    exact absurd h.counted.1 (by decide)

end Reckon.Formula
