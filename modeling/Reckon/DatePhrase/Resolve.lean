/-
The dates that date queries ask for, and how they are written.

A query is resolved against a moment that counts as now. Only days of a month take another time of
day, a fixed hour; all other queries keep the time of day of now.

* `findWeekday?` : a weekday counted in a month.
* `shiftDays?`, `shiftMonths?` : a moment shifted by a count of days or months.
* `Query.resolve?` : the moment that a query asks for, if the calendar has it.
* `Resolved.longForm` : a moment in words.
* `resolve` : a text resolved.
-/
import Reckon.Calendar.Moment
import Reckon.DatePhrase.Query
import Reckon.Error
import Reckon.Number.Display

namespace Reckon.DatePhrase

open Calendar

/-! ### Calendar arithmetic -/

/-- The days from a weekday to the one that is meant. -/
def weekdayShift (today target : Weekday) : Qualifier → Int
  | .next =>
    let k := (target.index : Int) - today.index
    if k ≤ 0 then k + 7 else k
  | .last =>
    let k := (target.index : Int) - today.index
    if 0 ≤ k then k - 7 else k
  | .nearest => (target.index : Int) - today.index

/-- No month has more days. -/
def longestMonth : Nat := 31

/-- The first day of the month after. -/
def nextMonth? (y : Int) (m : Nat) : Option Date :=
  if m = 12 then Date.of? (y + 1) 1 1 else Date.of? y (m + 1) 1

/-- The last day of a month: the one before the first of the month after. -/
def lastOfMonth? (y : Int) (m : Nat) : Option Date :=
  (nextMonth? y m).bind Date.previous?

/-- The day of a month that falls on a weekday and is meant by an ordinal. Days are counted from the
first of the month on, and the last one is looked for from the end of the month backward. -/
def findWeekday? (y : Int) (m : Nat) (w : Weekday) : Ordinal → Option Date
  | .nth 0 => none
  | .nth (n + 1) => do
    let first ← Date.of? y m 1
    let days := (first.onward longestMonth).takeWhile fun d => d.month == m
    (days.filter fun d => d.weekday == w)[n]?
  | .last => do
    let last ← lastOfMonth? y m
    let days := (last.backward longestMonth).takeWhile fun d => d.month == m
    days.find? fun d => d.weekday == w

/-- The month and day are over in the year of the date. -/
def isPast (today : Date) (m d : Nat) : Bool :=
  m < today.month || (m == today.month && d < today.day)

/-- How many years are tried for a month and day. Years with a 29th of February are at most eight
years apart. -/
def yearsTried : Nat := 9

/-- The first date with this month and day in the year of today or a later one, if it is not over in
that year. -/
def nextMonthDay? (today : Date) (m d : Nat) : Option Date :=
  let y := if isPast today m d then today.year + 1 else today.year
  (List.range yearsTried).findSome? fun (i : Nat) => Date.of? (y + i) m d

/-- The bound on counts of days and of months. -/
def countBound : Nat := Nat.pow 2 31

/-- The moment so many days later, if days are counted so far. -/
def shiftDays? (t : Moment) (n : Int) : Option Moment :=
  if n.natAbs < countBound then t.addDays? n else none

/-- The moment so many months later, if months are counted so far. -/
def shiftMonths? (t : Moment) (n : Int) : Option Moment :=
  if n.natAbs < countBound then t.addMonths? n else none

/-- A multiple of an amount, if it is within the bound on amounts. -/
def multiple? (k amount : Int) : Option Int :=
  let n := k * amount
  if -amountBound ≤ n ∧ n < amountBound then some n else none

/-- The moment shifted by an amount of a unit. -/
def shift? (t : Moment) (amount : Int) : DateUnit → Option Moment
  | .days => shiftDays? t amount
  | .weeks => do shiftDays? t (← multiple? 7 amount)
  | .months => shiftMonths? t amount
  | .years => do shiftMonths? t (← multiple? 12 amount)

/-- The moment that a query asks for. Days of a month are at `hour` o'clock. -/
def Query.resolve? (now : Moment) (hour : Nat) : Query → Option Moment
  | namedWeekday weekday qualifier => shiftDays? now (weekdayShift now.date.weekday weekday qualifier)
  | ordinalWeekday ordinal weekday month =>
    (findWeekday? now.date.year month weekday ordinal).map fun d => { now with date := d }
  | monthDay month day => do
    let date ← nextMonthDay? now.date month day
    let time ← TimeOfDay.of? hour 0 0
    return ⟨date, time⟩
  | relative days => shiftDays? now days
  | relativeArithmetic baseDays amount unit => do
    let base ← shiftDays? now baseDays
    shift? base amount unit

/-! ### Dates in words -/

/-- A moment and the language to write it in. -/
structure Resolved where
  moment : Moment
  language : Language
  deriving Repr, DecidableEq

/-- The text with its first letter in upper case, for names that begin with an ASCII letter. -/
def capitalized (s : String) : String :=
  match s.toList with
  | [] => ""
  | c :: r => String.ofList (c.toUpper :: r)

/-- A number in decimal digits. -/
def natText (n : Nat) : String :=
  String.ofList (Number.digits n)

/-- A number in decimal digits behind its sign. -/
def intText (n : Int) : String :=
  if n < 0 then "-" ++ natText n.natAbs else natText n.natAbs

/-- The hour and the minute with two digits each. -/
def clockText (t : TimeOfDay) : String :=
  String.ofList (Number.paddedDigits 2 t.hour) ++ ":" ++
    String.ofList (Number.paddedDigits 2 t.minute)

namespace Resolved

/-- The moment in words: weekday, date and time. -/
def longForm (r : Resolved) : String :=
  let d := r.moment.date
  let weekday := capitalized (r.language.weekdayName d.weekday)
  let month := r.language.monthName d.month
  let time := clockText r.moment.time
  match r.language with
  | .en => s!"{weekday}, {natText d.day} {capitalized month} {intText d.year}, {time}"
  | .es => s!"{weekday}, {natText d.day} de {month} de {intText d.year}, {time}"

/-- What kind of answer this is. -/
def subtitle (r : Resolved) : String :=
  match r.language with
  | .en => "Detected date"
  | .es => "Fecha detectada"

end Resolved

/-- The hour of days of a month, unless another is set. -/
def defaultHour : Nat := 12

/-- The moment that a text asks for. -/
def resolve (now : Moment) (hour : Nat) (s : List Char) : Except Error Resolved :=
  match read? s with
  | none => .error (.noMatch (.datePhrase (Text.trim s)))
  | some reading =>
    match reading.query.resolve? now hour with
    | none => .error (.invalidDate (Text.trim s))
    | some t => .ok ⟨t, reading.language⟩

end Reckon.DatePhrase
