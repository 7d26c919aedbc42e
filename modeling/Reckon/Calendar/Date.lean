/-
The calendar: dates of the proleptic Gregorian calendar in a bounded range of years.

A date is a year, a month and a day that exist, so no date has to be checked again. The days of the
calendar are numbered, with 1 January of the year 1 as day zero; shifting a date by days is addition
of day numbers, and shifting by months counts months and clamps the day to the month's length.

* `Date.of?` : the date with this year, month and day, if it exists.
* `Date.dayNumber`, `Date.ofDayNumber?` : between dates and day numbers.
* `Date.addDays?`, `Date.addMonths?` : shifted dates, if they are in the calendar.
* `Date.weekday` : the day of the week.
* `Date.onward`, `Date.backward` : the days from a date on, one after another, or back.
* `Date.of?_eq_some_iff`, `Date.month_mem` : what a date consists of.
-/

namespace Reckon.Calendar

/-- The first year of the calendar. -/
def minYear : Int := -262143

/-- The last year of the calendar. -/
def maxYear : Int := 262142

/-- The year has a 29th of February. -/
def isLeap (y : Int) : Bool :=
  y % 4 = 0 && (y % 100 ≠ 0 || y % 400 = 0)

/-- The number of days of a month. There is no month but 1 to 12. -/
def monthLength (y : Int) : Nat → Nat
  | 1 => 31
  | 2 => if isLeap y then 29 else 28
  | 3 => 31
  | 4 => 30
  | 5 => 31
  | 6 => 30
  | 7 => 31
  | 8 => 31
  | 9 => 30
  | 10 => 31
  | 11 => 30
  | 12 => 31
  | _ => 0

theorem month_mem_of_monthLength_pos {y : Int} {m : Nat} (h : 0 < monthLength y m) :
    1 ≤ m ∧ m ≤ 12 := by
  unfold monthLength at h
  split at h <;> simp_all

/-- The number of days of the first `m` months of a year. -/
def daysThrough (y : Int) : Nat → Nat
  | 0 => 0
  | m + 1 => daysThrough y m + monthLength y (m + 1)

/-- The number of days from 1 January of the year 1 to 1 January of the year `y`, which is negative
for earlier years. -/
def daysBeforeYear (y : Int) : Int :=
  365 * (y - 1) + (y - 1) / 4 - (y - 1) / 100 + (y - 1) / 400

/-- The days of the week. -/
inductive Weekday
  | sunday
  | monday
  | tuesday
  | wednesday
  | thursday
  | friday
  | saturday
  deriving Repr, DecidableEq

/-- The place of a day in a week that begins on Sunday. -/
def Weekday.index : Weekday → Nat
  | sunday => 0
  | monday => 1
  | tuesday => 2
  | wednesday => 3
  | thursday => 4
  | friday => 5
  | saturday => 6

/-- The day with this place in the week, counted on into later weeks. -/
def Weekday.ofIndex (n : Nat) : Weekday :=
  match n % 7 with
  | 0 => sunday
  | 1 => monday
  | 2 => tuesday
  | 3 => wednesday
  | 4 => thursday
  | 5 => friday
  | _ => saturday

theorem Weekday.ofIndex_index (w : Weekday) : Weekday.ofIndex w.index = w := by
  cases w <;> rfl

/-- A date of the calendar. -/
structure Date where
  year : Int
  month : Nat
  day : Nat
  year_mem : minYear ≤ year ∧ year ≤ maxYear
  day_mem : 1 ≤ day ∧ day ≤ monthLength year month
  deriving Repr, DecidableEq

namespace Date

/-- The date with this year, month and day, if there is one. -/
def of? (y : Int) (m d : Nat) : Option Date :=
  if h : (minYear ≤ y ∧ y ≤ maxYear) ∧ 1 ≤ d ∧ d ≤ monthLength y m then
    some ⟨y, m, d, h.1, h.2⟩
  else none

theorem of?_eq_some_iff {y : Int} {m d : Nat} {x : Date} :
    of? y m d = some x ↔ x.year = y ∧ x.month = m ∧ x.day = d := by
  unfold of?
  split
  · rename_i h
    constructor
    · intro hx
      obtain rfl := Option.some.inj hx
      exact ⟨rfl, rfl, rfl⟩
    · rintro ⟨rfl, rfl, rfl⟩
      rfl
  · rename_i h
    constructor
    · intro hx
      simp at hx
    · rintro ⟨rfl, rfl, rfl⟩
      exact absurd ⟨x.year_mem, x.day_mem⟩ h

theorem of?_self (x : Date) : of? x.year x.month x.day = some x :=
  of?_eq_some_iff.mpr ⟨rfl, rfl, rfl⟩

theorem month_mem (x : Date) : 1 ≤ x.month ∧ x.month ≤ 12 :=
  month_mem_of_monthLength_pos (Nat.lt_of_lt_of_le x.day_mem.1 x.day_mem.2)

/-- The number of the day. -/
def dayNumber (x : Date) : Int :=
  daysBeforeYear x.year + daysThrough x.year (x.month - 1) + x.day - 1

/-- The year that holds the day with this number. The average length of a year gives it, or a
neighbour of it. -/
def yearOfDay (n : Int) : Int :=
  let y := 400 * n / 146097 + 1
  if n < daysBeforeYear y then y - 1
  else if daysBeforeYear (y + 1) ≤ n then y + 1
  else y

/-- The month and the day of the month that lie `r` days after the first of month `m`, at most `k`
months later. -/
def monthAndDay (y : Int) : Nat → Nat → Nat → Nat × Nat
  | 0, m, r => (m, r + 1)
  | k + 1, m, r =>
    if r < monthLength y m then (m, r + 1) else monthAndDay y k (m + 1) (r - monthLength y m)

/-- The date of the day with this number, if it is in the calendar. -/
def ofDayNumber? (n : Int) : Option Date :=
  let y := yearOfDay n
  let (m, d) := monthAndDay y 11 1 (n - daysBeforeYear y).toNat
  of? y m d

/-- The date so many days later, or earlier for a negative number. -/
def addDays? (x : Date) (n : Int) : Option Date :=
  ofDayNumber? (x.dayNumber + n)

/-- The number of the month, counted from January of the year zero. -/
def monthNumber (x : Date) : Int :=
  12 * x.year + x.month - 1

/-- The date so many months later, or earlier for a negative number. The day is the same, or the
last of a month that is too short for it. -/
def addMonths? (x : Date) (n : Int) : Option Date :=
  let k := x.monthNumber + n
  let y := k / 12
  let m := (k % 12).toNat + 1
  of? y m (min x.day (monthLength y m))

/-- The day of the week. Day zero was a Monday. -/
def weekday (x : Date) : Weekday :=
  Weekday.ofIndex ((x.dayNumber + 1) % 7).toNat

/-- The day after. -/
def next? (x : Date) : Option Date :=
  x.addDays? 1

/-- The day before. -/
def previous? (x : Date) : Option Date :=
  x.addDays? (-1)

/-- The days from a date on, at most `k` of them. A day is left out if the calendar ends with it. -/
def onward : Nat → Date → List Date
  | 0, _ => []
  | k + 1, x => x.next?.elim [] fun y => x :: onward k y

theorem onward_succ {x y : Date} (h : x.next? = some y) (k : Nat) :
    x.onward (k + 1) = x :: y.onward k := by
  rw [onward, h, Option.elim_some]

theorem onward_succ_of_none {x : Date} (h : x.next? = none) (k : Nat) : x.onward (k + 1) = [] := by
  rw [onward, h, Option.elim_none]

/-- The days from a date backward, at most `k` of them. -/
def backward : Nat → Date → List Date
  | 0, _ => []
  | k + 1, x => x :: x.previous?.elim [] (backward k)

theorem backward_succ {x y : Date} (h : x.previous? = some y) (k : Nat) :
    x.backward (k + 1) = x :: y.backward k := by
  rw [backward, h, Option.elim_some]

theorem backward_succ_of_none {x : Date} (h : x.previous? = none) (k : Nat) :
    x.backward (k + 1) = [x] := by
  rw [backward, h, Option.elim_none]

end Date

end Reckon.Calendar
