/-
The words of date phrases, in English and Spanish.

Each word carries the language that it belongs to, so a phrase tells in which language to answer.
Weekdays and months have abbreviations in English only.

* `weekday?`, `fullWeekday?`, `month?`, `ordinal?`, `relativeDays?`, `dateUnit?` : what a word
  means.
* `Language.weekdayName`, `Language.monthName` : the words that dates are written with.
-/
import Reckon.Calendar.Date

namespace Reckon.DatePhrase

open Calendar

/-- The languages of phrases and answers. -/
inductive Language
  | en
  | es
  deriving Repr, DecidableEq

/-- Which of the days of a month that fall on a weekday is meant. -/
inductive Ordinal
  /-- The one with this number, counted from one. -/
  | nth (n : Nat)
  | last
  deriving Repr, DecidableEq

/-- What dates are shifted by. -/
inductive DateUnit
  | days
  | weeks
  | months
  | years
  deriving Repr, DecidableEq

/-- Words with their meanings and languages. -/
abbrev WordTable (α : Type) := List (String × α × Language)

/-! ### Names -/

/-- The name of a weekday. -/
def Language.weekdayName : Language → Weekday → String
  | en, .sunday => "sunday"
  | en, .monday => "monday"
  | en, .tuesday => "tuesday"
  | en, .wednesday => "wednesday"
  | en, .thursday => "thursday"
  | en, .friday => "friday"
  | en, .saturday => "saturday"
  | es, .sunday => "domingo"
  | es, .monday => "lunes"
  | es, .tuesday => "martes"
  | es, .wednesday => "miércoles"
  | es, .thursday => "jueves"
  | es, .friday => "viernes"
  | es, .saturday => "sábado"

/-- The names of the months from January to December. -/
def Language.monthNames : Language → List String
  | en => ["january", "february", "march", "april", "may", "june", "july", "august", "september",
    "october", "november", "december"]
  | es => ["enero", "febrero", "marzo", "abril", "mayo", "junio", "julio", "agosto", "septiembre",
    "octubre", "noviembre", "diciembre"]

/-- The name of a month. A number below one counts as January, one above twelve as December. -/
def Language.monthName (l : Language) (m : Nat) : String :=
  l.monthNames.getD (min (m - 1) 11) ""

/-! ### Tables -/

/-- The full names of the weekdays, also without accents. -/
def fullWeekdays : WordTable Weekday := [
  ("monday", .monday, .en),
  ("tuesday", .tuesday, .en),
  ("wednesday", .wednesday, .en),
  ("thursday", .thursday, .en),
  ("friday", .friday, .en),
  ("saturday", .saturday, .en),
  ("sunday", .sunday, .en),
  ("lunes", .monday, .es),
  ("martes", .tuesday, .es),
  ("miércoles", .wednesday, .es),
  ("miercoles", .wednesday, .es),
  ("jueves", .thursday, .es),
  ("viernes", .friday, .es),
  ("sábado", .saturday, .es),
  ("sabado", .saturday, .es),
  ("domingo", .sunday, .es)]

/-- The abbreviations of the weekdays. -/
def shortWeekdays : WordTable Weekday := [
  ("mon", .monday, .en),
  ("tue", .tuesday, .en),
  ("tues", .tuesday, .en),
  ("wed", .wednesday, .en),
  ("thu", .thursday, .en),
  ("thurs", .thursday, .en),
  ("fri", .friday, .en),
  ("sat", .saturday, .en),
  ("sun", .sunday, .en)]

/-- The names of the months, with abbreviations and a second spelling. -/
def months : WordTable Nat := [
  ("january", 1, .en),
  ("february", 2, .en),
  ("march", 3, .en),
  ("april", 4, .en),
  ("may", 5, .en),
  ("june", 6, .en),
  ("july", 7, .en),
  ("august", 8, .en),
  ("september", 9, .en),
  ("october", 10, .en),
  ("november", 11, .en),
  ("december", 12, .en),
  ("enero", 1, .es),
  ("febrero", 2, .es),
  ("marzo", 3, .es),
  ("abril", 4, .es),
  ("mayo", 5, .es),
  ("junio", 6, .es),
  ("julio", 7, .es),
  ("agosto", 8, .es),
  ("septiembre", 9, .es),
  ("setiembre", 9, .es),
  ("octubre", 10, .es),
  ("noviembre", 11, .es),
  ("diciembre", 12, .es),
  ("jan", 1, .en),
  ("feb", 2, .en),
  ("mar", 3, .en),
  ("apr", 4, .en),
  ("jun", 6, .en),
  ("jul", 7, .en),
  ("aug", 8, .en),
  ("sep", 9, .en),
  ("sept", 9, .en),
  ("oct", 10, .en),
  ("nov", 11, .en),
  ("dec", 12, .en)]

/-- The ordinals. -/
def ordinals : WordTable Ordinal := [
  ("first", .nth 1, .en),
  ("1st", .nth 1, .en),
  ("second", .nth 2, .en),
  ("2nd", .nth 2, .en),
  ("third", .nth 3, .en),
  ("3rd", .nth 3, .en),
  ("fourth", .nth 4, .en),
  ("4th", .nth 4, .en),
  ("fifth", .nth 5, .en),
  ("5th", .nth 5, .en),
  ("last", .last, .en),
  ("primer", .nth 1, .es),
  ("primero", .nth 1, .es),
  ("segundo", .nth 2, .es),
  ("tercer", .nth 3, .es),
  ("tercero", .nth 3, .es),
  ("cuarto", .nth 4, .es),
  ("quinto", .nth 5, .es),
  ("último", .last, .es),
  ("ultimo", .last, .es)]

/-- The phrases for days near today, with their distance in days. -/
def relativeTerms : WordTable Int := [
  ("today", 0, .en),
  ("tomorrow", 1, .en),
  ("yesterday", -1, .en),
  ("day after tomorrow", 2, .en),
  ("the day after tomorrow", 2, .en),
  ("day before yesterday", -2, .en),
  ("the day before yesterday", -2, .en),
  ("hoy", 0, .es),
  ("mañana", 1, .es),
  ("manana", 1, .es),
  ("ayer", -1, .es),
  ("pasado mañana", 2, .es),
  ("pasado manana", 2, .es),
  ("anteayer", -2, .es),
  ("antier", -2, .es),
  ("antes de ayer", -2, .es)]

/-- The units that dates are shifted by. -/
def dateUnits : WordTable DateUnit := [
  ("day", .days, .en),
  ("days", .days, .en),
  ("week", .weeks, .en),
  ("weeks", .weeks, .en),
  ("month", .months, .en),
  ("months", .months, .en),
  ("year", .years, .en),
  ("years", .years, .en),
  ("día", .days, .es),
  ("días", .days, .es),
  ("dia", .days, .es),
  ("dias", .days, .es),
  ("semana", .weeks, .es),
  ("semanas", .weeks, .es),
  ("mes", .months, .es),
  ("meses", .months, .es),
  ("año", .years, .es),
  ("años", .years, .es),
  ("ano", .years, .es),
  ("anos", .years, .es)]

/-! ### Looking words up -/

/-- A weekday by its full name. -/
def fullWeekday? (word : String) : Option (Weekday × Language) :=
  fullWeekdays.lookup word

/-- A weekday by its full name or an abbreviation. -/
def weekday? (word : String) : Option (Weekday × Language) :=
  (fullWeekdays ++ shortWeekdays).lookup word

/-- The number of a month. -/
def month? (word : String) : Option (Nat × Language) :=
  months.lookup word

/-- An ordinal. -/
def ordinal? (word : String) : Option (Ordinal × Language) :=
  ordinals.lookup word

/-- The distance in days of a day near today. -/
def relativeDays? (phrase : String) : Option (Int × Language) :=
  relativeTerms.lookup phrase

/-- A unit that dates are shifted by. -/
def dateUnit? (word : String) : Option (DateUnit × Language) :=
  dateUnits.lookup word

end Reckon.DatePhrase
