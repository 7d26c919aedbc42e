/-
The interpreter: queries in, answers out.

Four resolvers look at a query one after another: dates, units, temperatures, arithmetic. The first
that has an answer gives it. Each can be switched off.

* `Options` : which resolvers are on, and the hour of days of a month.
* `Kind.answer` : what one resolver answers.
* `interpret` : the answer to a query.
-/
import Reckon.Conversion.Rule
import Reckon.Conversion.Temperature
import Reckon.DatePhrase.Resolve
import Reckon.Formula.Evaluate

namespace Reckon

open Calendar

/-- The resolvers. -/
inductive Kind
  | calculator
  | unitConversion
  | temperatureConversion
  | date
  deriving Repr, DecidableEq

/-- The name of a resolver in an answer. -/
def Kind.name : Kind → String
  | calculator => "calculator"
  | unitConversion => "unit_conversion"
  | temperatureConversion => "temperature_conversion"
  | date => "date"

/-- The resolvers in the order in which they are tried. Those of narrow grammars come first. -/
def Kind.inOrder : List Kind := [date, unitConversion, temperatureConversion, calculator]

/-- An answer. -/
structure Answer where
  title : String
  subtitle : String
  kind : Kind
  deriving Repr, DecidableEq

/-- Which resolvers are on, and the hour of days of a month. -/
structure Options where
  dates : Bool := true
  units : Bool := true
  temperature : Bool := true
  arithmetic : Bool := true
  literalHour : Nat := DatePhrase.defaultHour
  deriving Repr, DecidableEq

/-- The resolver is on. -/
def Options.isOn (o : Options) : Kind → Bool
  | .date => o.dates
  | .unitConversion => o.units
  | .temperatureConversion => o.temperature
  | .calculator => o.arithmetic

/-- The answer of one resolver to a query without blanks at its ends. -/
def Kind.answer (o : Options) (now : Moment) (query : List Char) (k : Kind) : Except Error Answer :=
  match k with
  | date => do
    let r ← DatePhrase.resolve now o.literalHour query
    return ⟨r.longForm, r.subtitle, date⟩
  | unitConversion => do
    let r ← Conversion.convertUnits query
    return ⟨r.text, r.alternate.getD "Unit conversion", unitConversion⟩
  | temperatureConversion => do
    let r ← Conversion.convertTemperature query
    return ⟨r.text, "Temperature conversion", temperatureConversion⟩
  | calculator => do
    let x ← Formula.calculate query
    return ⟨String.ofList (Number.display x), "Calculation", calculator⟩

/-- The first answer of the resolvers in this order that are on. -/
def firstAnswer (o : Options) (now : Moment) (query : List Char) (ks : List Kind) : Option Answer :=
  ks.findSome? fun k => if o.isOn k then (k.answer o now query).toOption else none

/-- The answer to a query. -/
def interpret (o : Options) (now : Moment) (text : List Char) : Except Error Answer :=
  let query := Text.trim text
  if query.isEmpty then .error (.noMatch .emptyQuery)
  else
    match firstAnswer o now query Kind.inOrder with
    | some a => .ok a
    | none => .error (.noMatch (.interpretation query))

end Reckon
