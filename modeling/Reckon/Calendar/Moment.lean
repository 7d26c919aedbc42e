/-
Times of day, and moments: a date with a time of day.

Times are told to the second. The fraction of a second that a clock or a timestamp may have is left
out: a time is shifted by whole seconds, days and months only, and answers show hours and minutes.

* `TimeOfDay.of?` : the time with this hour, minute and second, if there is one.
* `Moment.addDays?`, `Moment.addMonths?` : the date is shifted and the time of day stays.
* `Moment.addSeconds?` : shifted by seconds, carried through days, months and years.
* `Moment.epoch` : where clocks begin to count.
-/
import Reckon.Calendar.Date

namespace Reckon.Calendar

/-- A time of day to the second. A fraction of a second is not kept. -/
structure TimeOfDay where
  hour : Nat
  minute : Nat
  second : Nat
  hour_lt : hour < 24
  minute_lt : minute < 60
  second_lt : second < 60
  deriving Repr, DecidableEq

namespace TimeOfDay

/-- The time with this hour, minute and second, if there is one. -/
def of? (hour minute second : Nat) : Option TimeOfDay :=
  if h : hour < 24 ∧ minute < 60 ∧ second < 60 then
    some ⟨hour, minute, second, h.1, h.2.1, h.2.2⟩
  else none

/-- The seconds since midnight. -/
def seconds (t : TimeOfDay) : Nat :=
  3600 * t.hour + 60 * t.minute + t.second

/-- The time so many seconds after midnight, counted on through any number of days. -/
def ofSeconds (n : Nat) : TimeOfDay where
  hour := n / 3600 % 24
  minute := n / 60 % 60
  second := n % 60
  hour_lt := Nat.mod_lt _ (by decide)
  minute_lt := Nat.mod_lt _ (by decide)
  second_lt := Nat.mod_lt _ (by decide)

theorem ofSeconds_seconds (t : TimeOfDay) : ofSeconds t.seconds = t := by
  obtain ⟨h, m, s, hh, hm, hs⟩ := t
  have h₁ : (3600 * h + 60 * m + s) / 3600 % 24 = h := by omega
  have h₂ : (3600 * h + 60 * m + s) / 60 % 60 = m := by omega
  have h₃ : (3600 * h + 60 * m + s) % 60 = s := by omega
  simp only [ofSeconds, seconds, h₁, h₂, h₃]

end TimeOfDay

/-- A date with a time of day to the second. -/
structure Moment where
  date : Date
  time : TimeOfDay
  deriving Repr, DecidableEq

namespace Moment

/-- The moment so many days later, at the same time of day. -/
def addDays? (t : Moment) (n : Int) : Option Moment :=
  (t.date.addDays? n).map fun d => { t with date := d }

/-- The moment so many months later, at the same time of day. -/
def addMonths? (t : Moment) (n : Int) : Option Moment :=
  (t.date.addMonths? n).map fun d => { t with date := d }

/-- The moment so many seconds later. -/
def addSeconds? (t : Moment) (n : Int) : Option Moment :=
  let s := (t.time.seconds : Int) + n
  (t.date.addDays? (s / 86400)).map fun d => ⟨d, TimeOfDay.ofSeconds (s % 86400).toNat⟩

/-- The beginning of the year 1970. -/
def epoch : Moment where
  date := ⟨1970, 1, 1, by decide, by decide⟩
  time := TimeOfDay.ofSeconds 0

end Moment

end Reckon.Calendar
