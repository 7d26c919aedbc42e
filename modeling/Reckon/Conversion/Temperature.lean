/-
Temperatures.

A temperature query has the grammar of a conversion query with names of scales in place of units. A
name may have a word for degrees or degree signs in front of it.

* `Scale.ofName?` : the scale that a name stands for.
* `Scale.convert` : a temperature on another scale.
* `convertTemperature` : the conversion that a text asks for, shown with two decimal places.
-/
import Reckon.Conversion.Query

namespace Reckon.Conversion

open Text

/-- The temperature scales. -/
inductive Scale
  | celsius
  | fahrenheit
  deriving Repr, DecidableEq

namespace Scale

/-- Words for degrees in front of a name. -/
def degreeWords : List String := ["degrees ", "degree ", "grados ", "grado "]

/-- The names of the scales without words and signs for degrees. -/
def names : List (Scale × List String) := [
  (.celsius, ["c", "celsius", "centigrade", "centígrados", "centigrados", "centígrado",
    "centigrado"]),
  (.fahrenheit, ["f", "fahrenheit"])]

/-- A sign for degrees. -/
def isDegreeSign (c : Char) : Bool :=
  c == '°' || c == 'º'

/-- A name without one word for degrees in front and then without degree signs. -/
def bareName (s : List Char) : List Char :=
  let rest := (degreeWords.findSome? fun w => stripPrefix? w.toList s).getD s
  trim (rest.dropWhile isDegreeSign)

/-- The scale that a name stands for. -/
def ofName? (name : String) : Option Scale :=
  let key := String.ofList (bareName (lower (trim name.toList)))
  (names.find? fun entry => entry.2.contains key).map Prod.fst

/-- The sign of a scale. -/
def symbol : Scale → String
  | celsius => "°C"
  | fahrenheit => "°F"

/-- A temperature on another scale. -/
def convert (source target : Scale) (x : Float) : Float :=
  match source, target with
  | celsius, fahrenheit => x * 9 / 5 + 32
  | fahrenheit, celsius => (x - 32) * 5 / 9
  | celsius, celsius => x
  | fahrenheit, fahrenheit => x

end Scale

/-- Decimal places of a temperature on display. -/
def temperaturePlaces : Nat := 2

/-- The conversion between two different scales that a text asks for. -/
def convertTemperature (s : List Char) : Except Error Outcome :=
  match (Query.read? Scale.ofName? s).filter fun q => q.source ≠ q.target with
  | none => .error (.noMatch (.temperatureConversion (trim s)))
  | some q => do
    let amount ← requireFinite q.amount
    let x ← requireFinite (q.source.convert q.target amount)
    return ⟨x, q.target.symbol, quantity temperaturePlaces x q.target.symbol, none⟩

end Reckon.Conversion
