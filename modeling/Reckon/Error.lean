/-
Why a query has no answer.

* `Error` : the causes.
* `Error.message` : the text for a cause, which begins with the kind of the error.
-/
import Reckon.Formula.Token
import Reckon.Number.Display

namespace Reckon

/-- What a text was expected to be and is not. The text itself is kept. -/
inductive NoMatch
  | emptyQuery
  | unitConversion (text : List Char)
  | temperatureConversion (text : List Char)
  | datePhrase (text : List Char)
  /-- No resolver that is switched on has an answer. -/
  | interpretation (text : List Char)
  /-- A formula of a number alone. -/
  | calculation (formula : List Char)
  deriving Repr

/-- Why a query has no answer. -/
inductive Error
  | noMatch (cause : NoMatch)
  | malformed (fault : Formula.Fault)
  /-- The result is an infinity or NaN. -/
  | nonFinite (x : Float)
  /-- Both units are known, but there is no rule for the pair. The units are as written. -/
  | unrelatedUnits (source target : String)
  /-- The phrase is a date phrase, but no date of the calendar fits it. -/
  | invalidDate (text : List Char)
  deriving Repr

/-- The text between single quotation marks. -/
def quoted (s : List Char) : String :=
  "'" ++ String.ofList s ++ "'"

/-- The message for a text that matches nothing. -/
def NoMatch.message : NoMatch → String
  | emptyQuery => "empty query"
  | unitConversion s => "not a unit conversion: " ++ quoted s
  | temperatureConversion s => "not a temperature conversion: " ++ quoted s
  | datePhrase s => "not a date phrase: " ++ quoted s
  | interpretation s => "no interpretation for " ++ quoted s
  | calculation s => quoted s ++ " has no operator or function"

/-- The message for an error. -/
def Error.message : Error → String
  | noMatch cause => "No match: " ++ cause.message
  | malformed fault => "Malformed expression: " ++ fault.message
  | nonFinite x => "Non-finite result: " ++ String.ofList (Number.nonFiniteText x)
  | unrelatedUnits source target =>
    "Unrecognized unit pair: '" ++ source ++ "' to '" ++ target ++ "'"
  | invalidDate s => "Invalid date: " ++ quoted s ++ " does not resolve to a calendar date"

/-- The number, unless it is an infinity or NaN. -/
def requireFinite (x : Float) : Except Error Float :=
  if x.isFinite then .ok x else .error (.nonFinite x)

/-- Two steps in a row succeed where both do. -/
theorem bind_eq_ok_iff {ε α β : Type} {x : Except ε α} {f : α → Except ε β} {b : β} :
    x >>= f = .ok b ↔ ∃ a, x = .ok a ∧ f a = .ok b := by
  cases x with
  | error e => exact ⟨nofun, nofun⟩
  | ok a => exact ⟨fun h => ⟨a, rfl, h⟩, fun ⟨_, ha, h⟩ => Except.ok.inj ha ▸ h⟩

/-- A step that changes a result succeeds where there is one. -/
theorem map_eq_ok_iff {ε α β : Type} {x : Except ε α} {f : α → β} {b : β} :
    x.map f = .ok b ↔ ∃ a, x = .ok a ∧ f a = b := by
  cases x with
  | error e => exact ⟨nofun, nofun⟩
  | ok a =>
    exact ⟨fun h => ⟨a, rfl, Except.ok.inj h⟩, fun ⟨_, ha, h⟩ => Except.ok.inj ha ▸ h ▸ rfl⟩

end Reckon
