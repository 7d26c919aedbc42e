/-
The rules by which amounts are converted.

A rule goes from one unit to another. Its coefficients are decimals or quotients of decimals, so the
factor of a rule can be read exactly, while amounts are computed in floating point, one step after
another. A rule may offer its result in a friendlier unit when the number on display is large or
small.

* `Coefficient.value`, `Rule.value` : a coefficient and a converted amount as doubles.
* `Rule.apply` : a converted amount with its text and, where due, its alternate.
* `rules`, `rule?` : the rules and the rule for a pair of units.
-/
import Reckon.Conversion.MeasureUnit
import Reckon.Conversion.Query
import Reckon.Number.Round

namespace Reckon.Conversion

open Number

/-- A positive constant of a rule. -/
inductive Coefficient
  /-- These digits, of which so many stand behind the point. -/
  | decimal (digits places : Nat)
  | quotient (a b : Coefficient)
  deriving Repr, DecidableEq

namespace Coefficient

instance {n : Nat} : OfNat Coefficient n := ⟨decimal n 0⟩

instance : OfScientific Coefficient where
  ofScientific digits negative exponent :=
    if negative then decimal digits exponent else decimal (digits * Nat.pow 10 exponent) 0

/-- The coefficient as a double: a decimal is rounded once, and a quotient is that of two
doubles. -/
def value : Coefficient → Float
  | decimal digits places => nearestFloat false digits (Nat.pow 10 places)
  | quotient a b => a.value / b.value

end Coefficient

/-- A step of a conversion. -/
inductive Step
  | mul (c : Coefficient)
  | div (c : Coefficient)
  deriving Repr, DecidableEq

/-- The amount after a step. -/
def Step.apply (x : Float) : Step → Float
  | mul c => x * c.value
  | div c => x / c.value

/-- When an alternate is offered. -/
inductive Threshold
  /-- For numbers at or above the bound. -/
  | atLeast (bound : Coefficient)
  /-- For numbers other than zero of a magnitude below the bound. -/
  | below (bound : Coefficient)
  deriving Repr, DecidableEq

/-- The threshold is met. -/
def Threshold.isMet (x : Float) : Threshold → Bool
  | atLeast bound => bound.value ≤ x
  | below bound => x != 0 && x.abs < bound.value

/-- A friendlier unit for a result. The result is multiplied by the factor. -/
structure Alternate where
  threshold : Threshold
  factor : Coefficient
  label : String
  places : Nat
  deriving Repr, DecidableEq

/-- How amounts in one unit are converted to another and shown. -/
structure Rule where
  source : MeasureUnit
  target : MeasureUnit
  steps : List Step
  label : String
  places : Nat
  alternate : Option Alternate
  deriving Repr, DecidableEq

namespace Rule

/-- The converted amount. -/
def value (r : Rule) (amount : Float) : Float :=
  r.steps.foldl Step.apply amount

/-- The text of the alternate for a converted amount. The threshold is tested on the amount rounded
to the places that are shown. -/
def alternateText? (r : Rule) (x : Float) : Option String :=
  match r.alternate with
  | none => none
  | some a =>
    if a.threshold.isMet (roundTo r.places x) then
      some (quantity a.places (x * a.factor.value) a.label)
    else none

/-- The converted amount as it is shown. -/
def apply (r : Rule) (amount : Float) : Outcome where
  value := r.value amount
  label := r.label
  text := quantity r.places (r.value amount) r.label
  alternate := r.alternateText? (r.value amount)

end Rule

/-! ### The rules -/

/-- Kilometers in an astronomical unit. -/
def kmPerAu : Coefficient := 149597870.7

/-- Kilometers in a light year. -/
def kmPerLy : Coefficient := 9460730472580.8

/-- Light years in a parsec. -/
def lyPerPc : Coefficient := 3.261563777

/-- The rules for mass. -/
def massRules : List Rule := [
  ⟨.kilogram, .pound, [.mul 2.20462], "lbs", 2,
    some ⟨.atLeast 2000, .quotient 1 2000, "tons", 2⟩⟩,
  ⟨.pound, .kilogram, [.mul 0.453592], "kg", 2,
    some ⟨.below 1, 1000, "g", 0⟩⟩,
  ⟨.kilogram, .gram, [.mul 1000], "g", 0, none⟩,
  ⟨.gram, .kilogram, [.div 1000], "kg", 3, none⟩,
  ⟨.milligram, .gram, [.div 1000], "g", 3, none⟩,
  ⟨.gram, .milligram, [.mul 1000], "mg", 0, none⟩,
  ⟨.gram, .ounce, [.mul 0.035274], "oz", 2,
    some ⟨.atLeast 16, .quotient 1 16, "lbs", 2⟩⟩,
  ⟨.ounce, .gram, [.mul 28.3495], "g", 2,
    some ⟨.atLeast 1000, .quotient 1 1000, "kg", 2⟩⟩,
  ⟨.pound, .ounce, [.mul 16], "oz", 2, none⟩,
  ⟨.ounce, .pound, [.div 16], "lbs", 2, none⟩,
  ⟨.ton, .kilogram, [.mul 907.185], "kg", 2,
    some ⟨.atLeast 1000, .quotient 1 1000, "metric tons", 2⟩⟩,
  ⟨.kilogram, .ton, [.div 907.185], "tons", 3, none⟩,
  ⟨.ton, .pound, [.mul 2000], "lbs", 0, none⟩,
  ⟨.pound, .ton, [.div 2000], "tons", 3, none⟩]

/-- The rules for length. -/
def lengthRules : List Rule := [
  ⟨.kilometer, .mile, [.mul 0.621371], "mi", 2,
    some ⟨.below 1, 5280, "ft", 0⟩⟩,
  ⟨.mile, .kilometer, [.mul 1.609344], "km", 2,
    some ⟨.below 1, 1000, "m", 0⟩⟩,
  ⟨.meter, .foot, [.mul 3.28084], "ft", 2,
    some ⟨.atLeast 5280, .quotient 1 5280, "mi", 2⟩⟩,
  ⟨.foot, .meter, [.mul 0.3048], "m", 2,
    some ⟨.below 1, 100, "cm", 1⟩⟩,
  ⟨.centimeter, .inch, [.mul 0.393701], "in", 2,
    some ⟨.atLeast 12, .quotient 1 12, "ft", 2⟩⟩,
  ⟨.inch, .centimeter, [.mul 2.54], "cm", 2,
    some ⟨.atLeast 100, .quotient 1 100, "m", 2⟩⟩,
  ⟨.meter, .kilometer, [.div 1000], "km", 3, none⟩,
  ⟨.kilometer, .meter, [.mul 1000], "m", 0, none⟩,
  ⟨.centimeter, .meter, [.div 100], "m", 2, none⟩,
  ⟨.meter, .centimeter, [.mul 100], "cm", 0, none⟩,
  ⟨.millimeter, .centimeter, [.div 10], "cm", 1, none⟩,
  ⟨.centimeter, .millimeter, [.mul 10], "mm", 0, none⟩,
  ⟨.millimeter, .inch, [.mul 0.0393701], "in", 3, none⟩,
  ⟨.inch, .millimeter, [.mul 25.4], "mm", 1, none⟩,
  ⟨.yard, .meter, [.mul 0.9144], "m", 2, none⟩,
  ⟨.meter, .yard, [.mul 1.09361], "yd", 2, none⟩,
  ⟨.foot, .inch, [.mul 12], "in", 0, none⟩,
  ⟨.inch, .foot, [.div 12], "ft", 2, none⟩,
  ⟨.mile, .foot, [.mul 5280], "ft", 0, none⟩,
  ⟨.foot, .mile, [.div 5280], "mi", 3, none⟩]

/-- The rules for volume. -/
def volumeRules : List Rule := [
  ⟨.liter, .gallon, [.mul 0.264172], "gal", 2,
    some ⟨.below 1, 128, "fl oz", 1⟩⟩,
  ⟨.gallon, .liter, [.mul 3.78541], "L", 2, none⟩,
  ⟨.milliliter, .fluidOunce, [.mul 0.033814], "fl oz", 2,
    some ⟨.atLeast 8, .quotient 1 8, "cups", 2⟩⟩,
  ⟨.fluidOunce, .milliliter, [.mul 29.5735], "ml", 1, none⟩,
  ⟨.liter, .milliliter, [.mul 1000], "ml", 0, none⟩,
  ⟨.milliliter, .liter, [.div 1000], "L", 3, none⟩,
  ⟨.cup, .milliliter, [.mul 236.588], "ml", 1, none⟩,
  ⟨.milliliter, .cup, [.div 236.588], "cups", 2, none⟩,
  ⟨.liter, .cup, [.mul 4.22675], "cups", 2, none⟩,
  ⟨.cup, .liter, [.mul 0.236588], "L", 3, none⟩]

/-- The rules for distances in space. -/
def spaceRules : List Rule := [
  ⟨.lightYear, .kilometer, [.mul kmPerLy], "km", 0,
    some ⟨.atLeast 1e9, .quotient 1 kmPerAu, "AU", 0⟩⟩,
  ⟨.kilometer, .lightYear, [.div kmPerLy], "ly", 3,
    some ⟨.below 0.001, .quotient kmPerLy kmPerAu, "AU", 3⟩⟩,
  ⟨.astronomicalUnit, .kilometer, [.mul kmPerAu], "km", 0,
    some ⟨.atLeast 1e6, 1e-6, "million km", 2⟩⟩,
  ⟨.kilometer, .astronomicalUnit, [.div kmPerAu], "AU", 3, none⟩,
  ⟨.lightYear, .astronomicalUnit, [.mul (.quotient kmPerLy kmPerAu)], "AU", 0, none⟩,
  ⟨.parsec, .lightYear, [.mul lyPerPc], "ly", 3, none⟩,
  ⟨.lightYear, .parsec, [.div lyPerPc], "pc", 3, none⟩,
  ⟨.parsec, .kilometer, [.mul lyPerPc, .mul kmPerLy], "km", 0, none⟩]

/-- All rules. No pair of units has two. -/
def rules : List Rule :=
  massRules ++ lengthRules ++ volumeRules ++ spaceRules

/-- The rule for a pair of units. -/
def rule? (source target : MeasureUnit) : Option Rule :=
  rules.find? fun r => r.source = source ∧ r.target = target

/-- The conversion that a text asks for. Both units have to be known and a rule has to link them;
the amount and the result have to be finite. -/
def convertUnits (s : List Char) : Except Error Outcome :=
  match Query.read? MeasureUnit.ofName? s with
  | none => .error (.noMatch (.unitConversion (Text.trim s)))
  | some q =>
    match rule? q.source q.target with
    | none => .error (.unrelatedUnits q.sourceText q.targetText)
    | some r => do
      let amount ← requireFinite q.amount
      let outcome := r.apply amount
      let _ ← requireFinite outcome.value
      return outcome

end Reckon.Conversion
