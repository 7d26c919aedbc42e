/-
Where an infinity or NaN can be lost on the way to the answer.

Only the value of a whole formula has to be finite. Sums, differences, products and roots are not
finite when an operand is not. A quotient may be: a finite number divided by an infinity is zero.
Powers are left to the platform, which has more cases of this kind. So a formula with a step that is
not finite can have an answer, but only when that step, or an infinity or NaN that came of it, is a
divisor of a finite number or an operand of a power.

* `isFinite_of_add`, `cases_of_div` and so on : what finite results tell of the operands.
* `Expr.Part` : an expression within another.
* `Expr.Swallows` : a finite value with an operand that is not finite.
* `exists_part_of_prefix` : the values that working off a postorder goes through.
* `evaluateTokens_nonFinite_step` : an infinity or NaN leads to an error or is swallowed.
-/
import Reckon.Proofs.DoubleBits
import Reckon.Proofs.Postorder

namespace Reckon.Number

open Float.Model Float.Model.UnpackedFloat

/-! ### Finite results and their operands -/

/-- An infinity or NaN is written as an infinity or NaN. -/
theorem isFinite_of_pack {u : UnpackedFloat}
    (h : (Float.Model.pack u).unpack.isFinite = true) : u.isFinite = true := by
  cases u with
  | notANumber => exact absurd h (by decide)
  | infinity s => cases s <;> exact absurd h (by decide)
  | zero s => rfl
  | finite s m e hm => rfl

/-- The operation has no finite result unless both operands are finite. -/
def Strict (f : UnpackedFloat → UnpackedFloat → UnpackedFloat) : Prop :=
  ∀ u v, (f u v).isFinite = true → u.isFinite = true ∧ v.isFinite = true

theorem strict_add : Strict (UnpackedFloat.add .binary64) := by
  intro u v h
  cases u <;> cases v <;> first | exact ⟨rfl, rfl⟩ | cases h | skip
  -- two infinities add up to an infinity or to NaN
  simp only [UnpackedFloat.add] at h
  split at h <;> cases h

theorem strict_sub : Strict (UnpackedFloat.sub .binary64) := by
  intro u v h
  cases u <;> cases v <;> first | exact ⟨rfl, rfl⟩ | cases h | skip
  simp only [UnpackedFloat.sub] at h
  split at h <;> cases h

theorem strict_mul : Strict (UnpackedFloat.mul .binary64) := by
  intro u v h
  cases u <;> cases v <;> first | exact ⟨rfl, rfl⟩ | cases h

theorem isFinite_of_add {x y : Float} (h : (x + y).isFinite = true) :
    x.isFinite = true ∧ y.isFinite = true :=
  strict_add _ _ (isFinite_of_pack h)

theorem isFinite_of_sub {x y : Float} (h : (x - y).isFinite = true) :
    x.isFinite = true ∧ y.isFinite = true :=
  strict_sub _ _ (isFinite_of_pack h)

theorem isFinite_of_mul {x y : Float} (h : (x * y).isFinite = true) :
    x.isFinite = true ∧ y.isFinite = true :=
  strict_mul _ _ (isFinite_of_pack h)

/-- A finite quotient has a finite divisor, unless it is zero and the divisor an infinity. -/
theorem cases_of_div {x y : Float} (h : (x / y).isFinite = true) :
    x.isFinite = true ∧ (y.isFinite = true ∨ y.isInf = true ∧ (x / y == 0) = true) := by
  have hquotient : (x.toModel.unpack.div .binary64 y.toModel.unpack).isFinite = true :=
    isFinite_of_pack h
  have hzero {s : Sign} (hs : x.toModel.unpack.div .binary64 y.toModel.unpack = .zero s) :
      (x / y == 0) = true := by
    show (Float.ofModel (Float.Model.pack (x.toModel.unpack.div .binary64 y.toModel.unpack)) == 0)
      = true
    rw [hs]
    cases s <;> decide
  show x.toModel.unpack.isFinite = true ∧
    (y.toModel.unpack.isFinite = true ∨ y.toModel.unpack.isInf = true ∧ _)
  generalize x.toModel.unpack = u at hquotient hzero ⊢
  generalize y.toModel.unpack = v at hquotient hzero ⊢
  cases v with
  | notANumber => cases u <;> cases hquotient
  | zero s | finite s m e hm =>
    cases u <;> first | exact ⟨rfl, Or.inl rfl⟩ | cases hquotient
  | infinity s =>
    cases u <;> first | exact ⟨rfl, Or.inr ⟨rfl, hzero rfl⟩⟩ | cases hquotient

theorem isFinite_of_neg {x : Float} (h : (-x).isFinite = true) : x.isFinite = true := by
  have hneg : x.toModel.unpack.neg.isFinite = true := isFinite_of_pack h
  show x.toModel.unpack.isFinite = true
  cases hx : x.toModel.unpack <;> rw [hx] at hneg <;> first | rfl | cases hneg

theorem isFinite_of_sqrt {x : Float} (h : x.sqrt.isFinite = true) : x.isFinite = true := by
  have hroot : (x.toModel.unpack.sqrt .binary64).isFinite = true := isFinite_of_pack h
  show x.toModel.unpack.isFinite = true
  cases hx : x.toModel.unpack with
  | notANumber =>
    rw [hx] at hroot
    cases hroot
  | infinity s =>
    rw [hx] at hroot
    cases s <;> cases hroot
  | zero s | finite s m e hm => rfl

theorem isFinite_of_cubeRoot {x : Float} (h : (cubeRoot x).isFinite = true) :
    x.isFinite = true := by
  cases hx : Dyadic.ofFloat? x with
  | none =>
    -- an infinity or NaN is its own root
    rwa [cubeRoot, hx] at h
  | some d => exact Dyadic.isFinite_iff.mpr ⟨d, hx⟩

end Reckon.Number

namespace Reckon.Formula

open Number

namespace Expr

/-! ### Parts -/

/-- The operands of an expression. -/
def operands : Expr → List Expr
  | number _ => []
  | negate a => [a]
  | binary _ a b => [a, b]
  | sqrt a => [a]
  | cbrt a => [a]
  | pow a b => [a, b]

/-- The expression `s` is the other one, or it is within an operand of the other one. -/
inductive Part (s : Expr) : Expr → Prop
  | self : Part s s
  | operand {o u : Expr} (ho : o ∈ u.operands) (h : Part s o) : Part s u

/-- The value of `u` is finite although that of its operand `o` is not: `u` is a finite number
divided by an infinity, which is zero, or a power. -/
structure Swallows (u o : Expr) : Prop where
  mem : o ∈ u.operands
  not_finite : o.value.isFinite = false
  isFinite : u.value.isFinite = true
  cases : (∃ a, u = .binary .div a o ∧ a.value.isFinite = true ∧ o.value.isInf = true ∧
      (u.value == 0) = true) ∨ ∃ a b, u = .binary .pow a b ∨ u = .pow a b

/-- The only operations that swallow an operand are divisions and powers. -/
theorem swallows_of_isFinite {u o : Expr} (ho : o ∈ u.operands)
    (hnot : o.value.isFinite = false) (hu : u.value.isFinite = true) : u.Swallows o := by
  refine ⟨ho, hnot, hu, ?_⟩
  have hstrict {a b : Expr} (hmem : o ∈ [a, b])
      (h : a.value.isFinite = true ∧ b.value.isFinite = true) : False := by
    simp only [List.mem_cons, List.not_mem_nil, or_false] at hmem
    rcases hmem with rfl | rfl
    · simp [h.1] at hnot
    · simp [h.2] at hnot
  have hroot {a : Expr} (hmem : o ∈ [a]) (h : a.value.isFinite = true) : False := by
    rw [List.mem_singleton.mp hmem, h] at hnot
    cases hnot
  cases u with
  | number x => cases ho
  | negate a => exact (hroot ho (isFinite_of_neg hu)).elim
  | sqrt a => exact (hroot ho (isFinite_of_sqrt hu)).elim
  | cbrt a => exact (hroot ho (isFinite_of_cubeRoot hu)).elim
  | pow a b => exact Or.inr ⟨a, b, Or.inr rfl⟩
  | binary op a b =>
    cases op with
    | add => exact (hstrict ho (isFinite_of_add hu)).elim
    | sub => exact (hstrict ho (isFinite_of_sub hu)).elim
    | mul => exact (hstrict ho (isFinite_of_mul hu)).elim
    | pow => exact Or.inr ⟨a, b, Or.inl rfl⟩
    | div =>
      obtain ⟨ha, hb | ⟨hb, hzero⟩⟩ := cases_of_div hu
      · exact (hstrict ho ⟨ha, hb⟩).elim
      · simp only [operands, List.mem_cons, List.not_mem_nil, or_false] at ho
        rcases ho with rfl | rfl
        · simp [ha] at hnot
        · exact Or.inl ⟨a, rfl, ha, hb, hzero⟩

/-- On the way from a part that is not finite to a finite value, an operand is swallowed. -/
theorem exists_swallows {s t : Expr} (h : Part s t) (hs : s.value.isFinite = false)
    (ht : t.value.isFinite = true) : ∃ u o, Part u t ∧ u.Swallows o ∧ Part s o := by
  induction h with
  | self =>
    rw [hs] at ht
    cases ht
  | @operand o u ho h ih =>
    cases hfinite : o.value.isFinite with
    | true =>
      obtain ⟨u', o', hu', hswallows, hs'⟩ := ih hfinite
      exact ⟨u', o', .operand ho hu', hswallows, hs'⟩
    | false => exact ⟨u, o, .self, swallows_of_isFinite ho hfinite ht, h⟩

end Expr

/-! ### The values of a run -/

/-- Working off the list puts `x` on top of the stack at some point. -/
def Yields (ps : List Token) (x : Float) : Prop :=
  ∃ p vs, p <+: ps ∧ run [] p = .ok (x :: vs)

/-- Whatever is there before, each beginning of the postorder of `u` puts the value of a part of `u`
on top of the stack. -/
def Exposes (u : Expr) : Prop :=
  ∀ p, p <+: u.postorder → p ≠ [] →
    ∃ s, Expr.Part s u ∧ ∃ below, ∀ vs, run vs p = .ok (s.value :: (below ++ vs))

/-- The whole postorder puts the value of `u` itself on top, which leaves the beginnings without its
last token. -/
theorem exposes_of_concat {u : Expr} {ps : List Token} {t : Token} (hpost : u.postorder = ps ++ [t])
    (h : ∀ p, p <+: ps → p ≠ [] →
      ∃ s, Expr.Part s u ∧ ∃ below, ∀ vs, run vs p = .ok (s.value :: (below ++ vs))) :
    Exposes u := by
  intro p hp hne
  rw [hpost, List.prefix_concat_iff, ← hpost] at hp
  rcases hp with rfl | hp
  · refine ⟨u, .self, [], fun vs => ?_⟩
    have hrun := run_postorder u vs []
    rwa [List.append_nil] at hrun
  · exact h p hp hne

theorem exposes_unary {a u : Expr} {t : Token} (ha : Exposes a) (hmem : a ∈ u.operands)
    (hpost : u.postorder = a.postorder ++ [t]) : Exposes u := by
  refine exposes_of_concat hpost fun p hp hne => ?_
  obtain ⟨s, hs, hrun⟩ := ha p hp hne
  exact ⟨s, .operand hmem hs, hrun⟩

theorem exposes_binary {a b u : Expr} {t : Token} (ha : Exposes a) (hb : Exposes b)
    (hops : u.operands = [a, b]) (hpost : u.postorder = a.postorder ++ b.postorder ++ [t]) :
    Exposes u := by
  refine exposes_of_concat hpost fun p hp hne => ?_
  have hleft (hp : p <+: a.postorder) : ∃ s, Expr.Part s u ∧ ∃ below, ∀ vs,
      run vs p = .ok (s.value :: (below ++ vs)) := by
    obtain ⟨s, hs, hrun⟩ := ha p hp hne
    exact ⟨s, .operand (by simp [hops]) hs, hrun⟩
  rcases List.prefix_or_prefix_of_prefix hp (List.prefix_append _ _) with hp' | ⟨q, rfl⟩
  · exact hleft hp'
  · by_cases hq : q = []
    · subst hq
      exact hleft (by rw [List.append_nil])
    · -- behind the left operand its value lies below those of the right one
      have hprefix : q <+: b.postorder := (List.prefix_append_right_inj _).mp hp
      obtain ⟨s, hs, below, hrun⟩ := hb q hprefix hq
      refine ⟨s, .operand (by simp [hops]) hs, below ++ [a.value], fun vs => ?_⟩
      rw [run_postorder, hrun, List.append_assoc]
      rfl

theorem exposes (u : Expr) : Exposes u := by
  induction u with
  | number x =>
    intro p hp hne
    rcases List.prefix_cons_iff.mp hp with rfl | ⟨q, rfl, hq⟩
    · exact absurd rfl hne
    · rw [List.prefix_nil.mp hq]
      exact ⟨.number x, .self, [], fun vs => rfl⟩
  | negate a ih | sqrt a ih | cbrt a ih => exact exposes_unary ih (List.mem_singleton.mpr rfl) rfl
  | binary op a b iha ihb => exact exposes_binary iha ihb rfl rfl
  | pow a b iha ihb => exact exposes_binary iha ihb rfl rfl

/-- The values that working off a postorder yields are those of the parts of the tree. -/
theorem exists_part_of_yields {t : Expr} {x : Float} (h : Yields t.postorder x) :
    ∃ s, Expr.Part s t ∧ s.value = x := by
  obtain ⟨p, vs, hp, hrun⟩ := h
  have hne : p ≠ [] := by
    rintro rfl
    cases hrun
  obtain ⟨s, hs, below, hrun'⟩ := exposes t p hp hne
  rw [hrun' [], Except.ok.injEq, List.cons.injEq] at hrun
  exact ⟨s, hs, hrun.1⟩

/-! ### Steps that are not finite -/

/-- An infinity or NaN that a step of a list in postfix order yields is swallowed on its way to the
result. -/
def Swallowed (ps : List Token) (x : Float) : Prop :=
  ∃ t s u o : Expr, t.postorder = ps ∧ s.value = x ∧ Expr.Part s o ∧ u.Swallows o ∧ Expr.Part u t

/-- When a step in working off a formula yields an infinity or NaN, the answer is an error, unless
an infinity that it leads to divides a finite number, or an infinity or NaN that it leads to is an
operand of a power. -/
theorem evaluateTokens_nonFinite_step {ts ps : List Token} {x : Float}
    (hps : toPostfix ts = .ok ps) (hx : Yields ps x) (hnot : x.isFinite = false) :
    (∃ e, evaluateTokens ts = .error e) ∨ Swallowed ps x := by
  rw [evaluateTokens_eq, hps]
  cases hvalue : postfixValue ps with
  | error fault => exact Or.inl ⟨.malformed fault, by simp [hvalue]⟩
  | ok v =>
    obtain ⟨t, rfl, rfl⟩ := postfixValue_eq_ok_iff.mp hvalue
    simp only [hvalue, requireFinite]
    cases hfinite : t.value.isFinite with
    | false => exact Or.inl ⟨.nonFinite t.value, rfl⟩
    | true =>
      obtain ⟨s, hs, rfl⟩ := exists_part_of_yields hx
      obtain ⟨u, o, hu, hswallows, hs'⟩ := Expr.exists_swallows hs hnot hfinite
      exact Or.inr ⟨t, s, u, o, rfl, rfl, hs', hswallows, hu⟩

/-- The infinity of `5 / 0 + 1` comes with the first operation. -/
theorem evaluateTokens_nonFinite_step_sum :
    toPostfix [.number 5, .binary .div, .number 0, .binary .add, .number 1] =
      .ok [.number 5, .number 0, .binary .div, .number 1, .binary .add] ∧
    Yields [.number 5, .number 0, .binary .div, .number 1, .binary .add] (5 / 0) ∧
    (5 / 0 : Float).isFinite = false ∧
    ((∃ e, evaluateTokens [.number 5, .binary .div, .number 0, .binary .add, .number 1] = .error e) ∨
      Swallowed [.number 5, .number 0, .binary .div, .number 1, .binary .add] (5 / 0)) := by
  have hpost : toPostfix [.number 5, .binary .div, .number 0, .binary .add, .number 1] =
      .ok [.number 5, .number 0, .binary .div, .number 1, .binary .add] := rfl
  have hyields : Yields [.number 5, .number 0, .binary .div, .number 1, .binary .add] (5 / 0) :=
    ⟨[.number 5, .number 0, .binary .div], [], ⟨[.number 1, .binary .add], rfl⟩, rfl⟩
  have hnot : (5 / 0 : Float).isFinite = false := by decide
  exact ⟨hpost, hyields, hnot, evaluateTokens_nonFinite_step hpost hyields hnot⟩

/-- A step that is not finite can lead to an answer: `1 / (1 / 0)` is zero. -/
theorem evaluateTokens_reciprocal_of_infinity :
    (∃ ps x, toPostfix [.number 1, .binary .div, .leftParen, .number 1, .binary .div, .number 0,
        .rightParen] = .ok ps ∧ Yields ps x ∧ x.isFinite = false) ∧
    evaluateTokens [.number 1, .binary .div, .leftParen, .number 1, .binary .div, .number 0,
      .rightParen] = .ok 0 := by
  refine ⟨⟨[.number 1, .number 1, .number 0, .binary .div, .binary .div], 1 / 0, rfl, ?_, ?_⟩, ?_⟩
  · exact ⟨[.number 1, .number 1, .number 0, .binary .div], [1], ⟨[.binary .div], rfl⟩, rfl⟩
  · decide
  · show requireFinite (1 / (1 / 0)) = .ok 0
    rw [requireFinite, if_pos (by decide)]
    exact congrArg _ (by decide)

end Reckon.Formula
