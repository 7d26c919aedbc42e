/-
Chains of conversions.

The rules are written with rounded constants, and most pairs of units are linked by several routes.
Read exactly, a rule multiplies by a rational number, its factor. There is one scale behind all of
them: to each unit belongs its defined size, and the factor of a rule is the quotient of two sizes
up to a small relative error. So along a chain of rules the sizes between its ends cancel and the
errors alone are left, and two chains with the same ends agree up to those errors.

* `Rule.exact`, `Rule.factor` : a rule read exactly.
* `Chain` : rules of which each begins with the unit where the one before it ends.
* `MeasureUnit.size` : the hidden scale.
* `rules_near` : one rule agrees with the scale.
* `Chain.factor_near` : so does a chain, up to the error of its length.
* `chains_consistent` : chains with the same ends, and chains that come back.
-/
import Mathlib
import Reckon.Conversion.Rule

namespace Reckon.Conversion

/-! ### Rules read exactly -/

/-- The coefficient as a rational number. -/
def Coefficient.exact : Coefficient → ℚ
  | decimal digits places => digits / 10 ^ places
  | quotient a b => a.exact / b.exact

/-- The amount after a step, without rounding. -/
def Step.exact (x : ℚ) : Step → ℚ
  | mul c => x * c.exact
  | div c => x / c.exact

/-- The converted amount, without rounding. -/
def Rule.exact (r : Rule) (x : ℚ) : ℚ :=
  r.steps.foldl Step.exact x

/-- What a rule multiplies amounts by. -/
def Rule.factor (r : Rule) : ℚ :=
  r.exact 1

theorem Step.exact_mul (x y : ℚ) (s : Step) : s.exact (x * y) = x * s.exact y := by
  cases s with
  | mul c => exact mul_assoc x y c.exact
  | div c => exact mul_div_assoc x y c.exact

theorem Rule.exact_eq (r : Rule) (x : ℚ) : r.exact x = x * r.factor := by
  have hfold (steps : List Step) (y : ℚ) :
      steps.foldl Step.exact (x * y) = x * steps.foldl Step.exact y := by
    induction steps generalizing y with
    | nil => rfl
    | cons s steps ih => rw [List.foldl_cons, List.foldl_cons, Step.exact_mul, ih]
  rw [factor, exact, exact, ← hfold, mul_one]

/-! ### Chains -/

/-- Rules in a row from one unit to another: each begins with the unit where the one before it
ends. -/
inductive Chain : MeasureUnit → MeasureUnit → Type
  | nil (u : MeasureUnit) : Chain u u
  | cons {v : MeasureUnit} (r : Rule) (mem : r ∈ rules) (rest : Chain r.target v) :
    Chain r.source v

namespace Chain

/-- The number of rules. -/
def length {u v : MeasureUnit} : Chain u v → ℕ
  | nil _ => 0
  | cons _ _ rest => rest.length + 1

/-- The amount that comes out of the last rule, without rounding. -/
def exact {u v : MeasureUnit} : Chain u v → ℚ → ℚ
  | nil _, x => x
  | cons r _ rest, x => rest.exact (r.exact x)

/-- The product of the factors of the rules. -/
def factor {u v : MeasureUnit} : Chain u v → ℚ
  | nil _ => 1
  | cons r _ rest => r.factor * rest.factor

theorem exact_eq {u v : MeasureUnit} (c : Chain u v) (x : ℚ) : c.exact x = x * c.factor := by
  induction c generalizing x with
  | nil u => exact (mul_one x).symm
  | cons r hr rest ih => rw [exact, ih, r.exact_eq, factor, mul_assoc]

end Chain

/-! ### The scale behind the rules -/

/-- The defined size of a unit, in grams, meters or liters. A parsec is as many light years as the
rules say, since no rational number is its size. -/
def MeasureUnit.size : MeasureUnit → ℚ
  | milligram => 0.001
  | gram => 1
  | kilogram => 1000
  | ounce => 28.349523125
  | pound => 453.59237
  | ton => 907184.74
  | millimeter => 0.001
  | centimeter => 0.01
  | meter => 1
  | kilometer => 1000
  | inch => 0.0254
  | foot => 0.3048
  | yard => 0.9144
  | mile => 1609.344
  | milliliter => 0.001
  | liter => 1
  | fluidOunce => 0.0295735295625
  | cup => 0.2365882365
  | gallon => 3.785411784
  | astronomicalUnit => 149597870700
  | lightYear => 9460730472580800
  | parsec => 3.261563777 * 9460730472580800

theorem MeasureUnit.size_pos (u : MeasureUnit) : 0 < u.size := by
  cases u <;> norm_num [size]

/-- The relative error that a rule may have. -/
def tolerance : ℚ := 1 / 100000

/-- The factor of a rule is the quotient of the sizes of its units, up to the tolerance. -/
theorem rules_near : ∀ r ∈ rules,
    (1 - tolerance) * r.source.size ≤ r.factor * r.target.size ∧
      r.factor * r.target.size ≤ (1 + tolerance) * r.source.size := by
  decide +kernel

theorem tolerance_pos : 0 < tolerance := by norm_num [tolerance]

theorem one_sub_tolerance_pos : 0 < 1 - tolerance := by norm_num [tolerance]

theorem Rule.factor_pos {r : Rule} (hr : r ∈ rules) : 0 < r.factor := by
  have hlow : 0 < r.factor * r.target.size :=
    (mul_pos one_sub_tolerance_pos r.source.size_pos).trans_le (rules_near r hr).1
  exact pos_of_mul_pos_left hlow r.target.size_pos.le

/-! ### Chains agree with the scale -/

/-- The factor of a chain is the quotient of the sizes at its ends, up to one error for each rule.
-/
theorem Chain.factor_near {u v : MeasureUnit} (c : Chain u v) :
    (1 - tolerance) ^ c.length * u.size ≤ c.factor * v.size ∧
      c.factor * v.size ≤ (1 + tolerance) ^ c.length * u.size := by
  induction c with
  | nil u => simp [length, factor]
  | @cons v r hr rest ih =>
    obtain ⟨hlow, hhigh⟩ := ih
    obtain ⟨hnear, hnear'⟩ := rules_near r hr
    have hpos : 0 ≤ r.factor := (Rule.factor_pos hr).le
    rw [length, factor, pow_succ, pow_succ]
    -- the size of the unit in the middle is what the rule leads to and what the rest begins with
    constructor
    · calc (1 - tolerance) ^ rest.length * (1 - tolerance) * r.source.size
          = (1 - tolerance) ^ rest.length * ((1 - tolerance) * r.source.size) := by ring
        _ ≤ (1 - tolerance) ^ rest.length * (r.factor * r.target.size) :=
          mul_le_mul_of_nonneg_left hnear (pow_nonneg one_sub_tolerance_pos.le _)
        _ = r.factor * ((1 - tolerance) ^ rest.length * r.target.size) := by ring
        _ ≤ r.factor * (rest.factor * v.size) := mul_le_mul_of_nonneg_left hlow hpos
        _ = r.factor * rest.factor * v.size := by ring
    · calc r.factor * rest.factor * v.size
          = r.factor * (rest.factor * v.size) := by ring
        _ ≤ r.factor * ((1 + tolerance) ^ rest.length * r.target.size) :=
          mul_le_mul_of_nonneg_left hhigh hpos
        _ = (1 + tolerance) ^ rest.length * (r.factor * r.target.size) := by ring
        _ ≤ (1 + tolerance) ^ rest.length * ((1 + tolerance) * r.source.size) :=
          mul_le_mul_of_nonneg_left hnear' (pow_nonneg (by linarith [tolerance_pos]) _)
        _ = (1 + tolerance) ^ rest.length * (1 + tolerance) * r.source.size := by ring

/-- Two chains with the same ends have the same factor, up to one error for each of their rules. -/
theorem Chain.factor_le {u v : MeasureUnit} (c d : Chain u v) :
    c.factor * (1 - tolerance) ^ d.length ≤ d.factor * (1 + tolerance) ^ c.length := by
  have hlow : 0 ≤ (1 - tolerance) ^ d.length := pow_nonneg one_sub_tolerance_pos.le _
  have hhigh : 0 ≤ (1 + tolerance) ^ c.length := pow_nonneg (by linarith [tolerance_pos]) _
  refine le_of_mul_le_mul_right ?_ v.size_pos
  calc c.factor * (1 - tolerance) ^ d.length * v.size
      = c.factor * v.size * (1 - tolerance) ^ d.length := by ring
    _ ≤ (1 + tolerance) ^ c.length * u.size * (1 - tolerance) ^ d.length :=
      mul_le_mul_of_nonneg_right c.factor_near.2 hlow
    _ = (1 + tolerance) ^ c.length * ((1 - tolerance) ^ d.length * u.size) := by ring
    _ ≤ (1 + tolerance) ^ c.length * (d.factor * v.size) :=
      mul_le_mul_of_nonneg_left d.factor_near.1 hhigh
    _ = d.factor * (1 + tolerance) ^ c.length * v.size := by ring

/-- The rules agree with each other under composition: chains with the same ends have the same
factor up to the error of their lengths, and a chain that comes back to its unit gives every amount
back up to the error of its length. -/
theorem chains_consistent :
    (∀ (u v : MeasureUnit) (c d : Chain u v),
      c.factor * (1 - tolerance) ^ d.length ≤ d.factor * (1 + tolerance) ^ c.length) ∧
    ∀ (u : MeasureUnit) (c : Chain u u), (∀ x, c.exact x = x * c.factor) ∧
      (1 - tolerance) ^ c.length ≤ c.factor ∧ c.factor ≤ (1 + tolerance) ^ c.length := by
  refine ⟨fun u v c d => c.factor_le d, fun u c => ⟨c.exact_eq, ?_, ?_⟩⟩
  · -- the chain without rules goes from the unit to itself as well
    have hback := (Chain.nil u).factor_le c
    simpa [Chain.factor, Chain.length] using hback
  · have hback := c.factor_le (Chain.nil u)
    simpa [Chain.factor, Chain.length] using hback

end Reckon.Conversion
