/-
The units of mass, length and volume, and their names.

A unit has English and Spanish names, in singular and plural, and abbreviations. Names are looked up
in lower case, without blanks at their ends.

* `MeasureUnit.names` : the names of each unit.
* `MeasureUnit.ofName?` : the unit that a name stands for.
-/
import Reckon.Text.Blank
import Reckon.Text.LowerCase

namespace Reckon.Conversion

/-- The units that amounts can be in. A ton has 2000 pounds. -/
inductive MeasureUnit
  | milligram
  | gram
  | kilogram
  | ounce
  | pound
  | ton
  | millimeter
  | centimeter
  | meter
  | kilometer
  | inch
  | foot
  | yard
  | mile
  | milliliter
  | liter
  | fluidOunce
  | cup
  | gallon
  | astronomicalUnit
  | lightYear
  | parsec
  deriving Repr, DecidableEq

namespace MeasureUnit

/-- The names of the units. -/
def names : List (MeasureUnit × List String) := [
  (.milligram, ["mg", "milligram", "milligrams", "miligramo", "miligramos"]),
  (.gram, ["g", "gr", "gram", "grams", "gramo", "gramos"]),
  (.kilogram, ["kg", "kgs", "kilo", "kilos", "kilogram", "kilograms", "kilogramo", "kilogramos"]),
  (.ounce, ["oz", "ounce", "ounces", "onza", "onzas"]),
  (.pound, ["lb", "lbs", "pound", "pounds", "libra", "libras"]),
  (.ton, ["ton", "tons", "short ton", "short tons"]),
  (.millimeter, ["mm", "millimeter", "millimeters", "millimetre", "millimetres", "milímetro",
    "milímetros", "milimetro", "milimetros"]),
  (.centimeter, ["cm", "centimeter", "centimeters", "centimetre", "centimetres", "centímetro",
    "centímetros", "centimetro", "centimetros"]),
  (.meter, ["m", "meter", "meters", "metre", "metres", "metro", "metros"]),
  (.kilometer, ["km", "kms", "kilometer", "kilometers", "kilometre", "kilometres", "kilómetro",
    "kilómetros", "kilometro", "kilometros"]),
  (.inch, ["in", "inch", "inches", "pulgada", "pulgadas"]),
  (.foot, ["ft", "foot", "feet", "pie", "pies"]),
  (.yard, ["yd", "yds", "yard", "yards", "yarda", "yardas"]),
  (.mile, ["mi", "mile", "miles", "milla", "millas"]),
  (.milliliter, ["ml", "milliliter", "milliliters", "millilitre", "millilitres", "mililitro",
    "mililitros"]),
  (.liter, ["l", "liter", "liters", "litre", "litres", "litro", "litros"]),
  (.fluidOunce, ["fl oz", "fl. oz", "fluid ounce", "fluid ounces", "onza líquida",
    "onzas líquidas", "onza liquida", "onzas liquidas"]),
  (.cup, ["cup", "cups", "taza", "tazas"]),
  (.gallon, ["gal", "gallon", "gallons", "galón", "galon", "galones"]),
  (.astronomicalUnit, ["au", "ua", "astronomical unit", "astronomical units",
    "unidad astronómica", "unidades astronómicas", "unidad astronomica", "unidades astronomicas"]),
  (.lightYear, ["ly", "light year", "light years", "light-year", "light-years", "lightyear",
    "lightyears", "año luz", "años luz", "ano luz", "anos luz"]),
  (.parsec, ["pc", "parsec", "parsecs", "pársec", "pársecs"])]

/-- The unit that a name stands for. -/
def ofName? (name : String) : Option MeasureUnit :=
  let key := String.ofList (Text.lower (Text.trim name.toList))
  (names.find? fun entry => entry.2.contains key).map Prod.fst

end MeasureUnit

end Reckon.Conversion
