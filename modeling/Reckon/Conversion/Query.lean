/-
Conversion queries: an amount, what it is in, a connector, and what it is to be in.

Units and temperature scales share this grammar, so it takes the reading of a name as a parameter.
The words between the amount and the end are split at the first connector with a known name on both
sides; in "5 in to cm" the first connector is a unit.

* `readAmount?` : the amount in front of a query.
* `Query.read?` : a query read with a given reading of names.
* `Outcome` : a converted amount and how it is shown.
-/
import Reckon.Error
import Reckon.Number.Display
import Reckon.Number.Numeral
import Reckon.Text.Split

namespace Reckon.Conversion

open Text Number

/-- An amount to be converted. The names are kept as written. -/
structure Query (α : Type) where
  amount : Float
  source : α
  target : α
  sourceText : String
  targetText : String

/-- A converted amount. -/
structure Outcome where
  value : Float
  /-- The label of the unit. -/
  label : String
  /-- The amount as it is shown, with the label. -/
  text : String
  /-- The same amount in a friendlier unit, where one is offered. -/
  alternate : Option String
  deriving Repr

/-- The words between source and target. -/
def connectors : List String := ["to", "in", "a", "en"]

/-- A character of an amount behind its sign. -/
def isAmountChar (c : Char) : Bool :=
  c.isDigit || c == '.' || c == ','

/-- A decimal comma is read as a point. -/
def pointed (c : Char) : Char :=
  if c = ',' then '.' else c

/-- An amount without its sign and what follows it. -/
def readMagnitude? (s : List Char) : Option (Float × List Char) :=
  (readNumeral? ((s.takeWhile isAmountChar).map pointed)).map fun x => (x, s.dropWhile isAmountChar)

/-- An amount in front of a text, with a sign or without one, and what follows it. -/
def readAmount? : List Char → Option (Float × List Char)
  | '-' :: s => (readMagnitude? s).map fun (x, r) => (-x, r)
  | '+' :: s => readMagnitude? s
  | s => readMagnitude? s

/-- A split of words into source, connector and target, with both names known. -/
def readSplit? {α : Type} (name? : String → Option α) (amount : Float) :
    List String × String × List String → Option (Query α)
  | (before, connector, after) =>
    if connector ∈ connectors then
      match name? (joinWords before), name? (joinWords after) with
      | some source, some target =>
        some ⟨amount, source, target, joinWords before, joinWords after⟩
      | _, _ => none
    else none

/-- The query that a text is, with names read by `name?`. -/
def Query.read? {α : Type} (name? : String → Option α) (s : List Char) : Option (Query α) :=
  match readAmount? (collapse (lower s)) with
  | none => none
  | some (amount, rest) =>
    (places ((words rest).map String.ofList)).findSome? (readSplit? name? amount)

/-- A number with this many decimal places, and its label. -/
def quantity (places : Nat) (x : Float) (label : String) : String :=
  String.ofList (fixed places x) ++ " " ++ label

end Reckon.Conversion
