/-
Settings: interpreter options written as JSON.

The options are the fields of an object, or the items of an array in the order of the fields. What
is missing keeps its default, unknown fields are ignored, and a value of the wrong type, a number
out of range or a field given twice makes the settings invalid.

* `Options.ofJson?` : the options that a value stands for.
* `Options.parse?` : the options that a text stands for.
-/
import Reckon.Interpreter
import Reckon.Json.Reader
import Reckon.Number.Numeral

namespace Reckon.Options

/-- A truth value, or the default where it is missing. -/
def readBool? (default : Bool) : Option Json → Option Bool
  | none => some default
  | some (.bool b) => some b
  | some _ => none

/-- The bound on hours as written; hours past 23 are read but fit no date. -/
def hourBound : Nat := Nat.pow 2 32

/-- A natural number in digits below the bound, or the default where it is missing. -/
def readHour? (default : Nat) : Option Json → Option Nat
  | none => some default
  | some (.number ds) =>
    let n := Number.digitsValue ds
    if ds.all Char.isDigit ∧ n < hourBound then some n else none
  | some _ => none

/-- How dates resolve, as a value of its own with one field. -/
def readResolve? (default : Nat) : Option Json → Option Nat
  | none => some default
  | some v =>
    match v.fields? ["literal_hour"] with
    | some [hour] => readHour? default hour
    | _ => none

/-- The names of the fields in their order. -/
def fieldNames : List String := ["dates", "units", "temperature", "arithmetic", "resolve"]

/-- The options that a value stands for. -/
def ofJson? (v : Json) : Option Options :=
  let base : Options := {}
  match v.fields? fieldNames with
  | some [dates, units, temperature, arithmetic, resolve] => do
    let dates ← readBool? base.dates dates
    let units ← readBool? base.units units
    let temperature ← readBool? base.temperature temperature
    let arithmetic ← readBool? base.arithmetic arithmetic
    let literalHour ← readResolve? base.literalHour resolve
    return { dates, units, temperature, arithmetic, literalHour }
  | _ => none

/-- The options that a text stands for. -/
def parse? (s : List Char) : Option Options :=
  (Json.parse? s).bind ofJson?

end Reckon.Options
