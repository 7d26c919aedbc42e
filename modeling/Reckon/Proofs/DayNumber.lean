/-
Dates and the numbers of their days.

Dates are ordered by year, month and day. Numbering the days keeps this order, so no two dates have
the same number, and every number between those of two dates belongs to a date. Whatever is said
about shifting dates follows from this: a date shifted by days is the date with the shifted number.
The day after a date, which is found in this way by the calendar, is the one that counting through
days, months and years leads to.

* `Date.le_iff_dayNumber_le` : the order of dates is that of their numbers.
* `Date.ofDayNumber?_eq_some_iff` : the date with a number.
* `Date.addDays?_eq_some_iff` : shifting by days.
* `Date.following?`, `Date.next?_eq_following?` : the day after.
* `Date.next?_of_last`, `Date.previous?_of_first` : where a month ends and the next one begins.
* `calendarDays`, `Date.exists_dayNumber_iff` : the numbers of the days that the calendar has, with
  none left out between two of them.
* `weekdayOn`, `weekdayOn_eq_iff` : the days of the week, seven of them in turn.
-/
import Mathlib
import Reckon.Calendar.Date

namespace Reckon.Calendar

/-! ### Days of a year -/

theorem daysThrough_succ (y : ℤ) (m : ℕ) :
    daysThrough y (m + 1) = daysThrough y m + monthLength y (m + 1) := rfl

theorem le_monthLength {y : ℤ} {m : ℕ} (h : 1 ≤ m) (h' : m ≤ 12) : 28 ≤ monthLength y m := by
  have hshort : 28 ≤ if isLeap y then 29 else 28 := by split <;> decide
  interval_cases m <;> simp only [monthLength] <;> omega

theorem monthLength_pos {y : ℤ} {m : ℕ} (h : 1 ≤ m) (h' : m ≤ 12) : 1 ≤ monthLength y m :=
  le_trans (by decide) (le_monthLength h h')

theorem monthLength_le (y : ℤ) (m : ℕ) : monthLength y m ≤ 31 := by
  have hlong : (if isLeap y then 29 else 28) ≤ 31 := by split <;> decide
  rw [monthLength.eq_def]
  split <;> omega

theorem daysThrough_mono (y : ℤ) : Monotone (daysThrough y) := by
  apply monotone_nat_of_le_succ
  intro m
  rw [daysThrough_succ]
  exact Nat.le_add_right _ _

theorem daysThrough_twelve (y : ℤ) : daysThrough y 12 = if isLeap y then 366 else 365 := by
  simp only [daysThrough, monthLength]
  split <;> rfl

theorem daysBeforeYear_succ (y : ℤ) :
    daysBeforeYear (y + 1) = daysBeforeYear y + daysThrough y 12 := by
  rw [daysThrough_twelve, daysBeforeYear, daysBeforeYear]
  by_cases h : isLeap y = true
  · rw [if_pos h]
    simp only [isLeap, Bool.and_eq_true, Bool.or_eq_true, decide_eq_true_eq] at h
    push_cast
    omega
  · rw [if_neg h]
    simp only [isLeap, Bool.and_eq_true, Bool.or_eq_true, decide_eq_true_eq] at h
    push_cast
    omega

theorem daysBeforeYear_strictMono : StrictMono daysBeforeYear := by
  apply strictMono_int_of_lt_succ
  intro y
  rw [daysBeforeYear_succ, daysThrough_twelve]
  split <;> push_cast <;> omega

/-- The year of a day number holds it. -/
theorem yearOfDay_spec (n : ℤ) :
    daysBeforeYear (Date.yearOfDay n) ≤ n ∧ n < daysBeforeYear (Date.yearOfDay n + 1) := by
  have hquotient := Int.mul_ediv_add_emod (400 * n) 146097
  have hrest := Int.emod_nonneg (400 * n) (b := 146097) (by decide)
  have hrest' := Int.emod_lt_of_pos (400 * n) (b := 146097) (by decide)
  simp only [Date.yearOfDay]
  generalize 400 * n / 146097 = q at *
  -- the estimate is wrong by one year at most
  split
  · next hlow =>
    simp only [daysBeforeYear] at *
    omega
  · next hlow =>
    split
    · next hhigh =>
      simp only [daysBeforeYear] at *
      omega
    · next hhigh => exact ⟨by omega, by omega⟩

/-- The month and the day that lie `r` days after the first of a month. -/
theorem monthAndDay_spec {y : ℤ} {k m r : ℕ} (h : daysThrough y m + r < daysThrough y (m + 1 + k)) :
    ∃ m' d, Date.monthAndDay y k (m + 1) r = (m' + 1, d + 1) ∧ d < monthLength y (m' + 1) ∧
      daysThrough y m' + d = daysThrough y m + r := by
  induction k generalizing m r with
  | zero =>
    rw [Nat.add_zero, daysThrough_succ] at h
    exact ⟨m, r, rfl, by omega, rfl⟩
  | succ k ih =>
    rw [Date.monthAndDay]
    by_cases hr : r < monthLength y (m + 1)
    · rw [if_pos hr]
      exact ⟨m, r, rfl, hr, rfl⟩
    · rw [if_neg hr]
      have hsucc := daysThrough_succ y m
      have hnext : daysThrough y (m + 1) + (r - monthLength y (m + 1)) = daysThrough y m + r := by
        omega
      obtain ⟨m', d, hpair, hd, hsum⟩ := ih (m := m + 1) (r := r - monthLength y (m + 1)) (by
        rw [hnext]
        rwa [show m + 1 + 1 + k = m + 1 + (k + 1) by omega])
      exact ⟨m', d, hpair, hd, hsum.trans hnext⟩

namespace Date

/-! ### The order of dates -/

/-- By year, month and day. -/
instance : LE Date where
  le x y := x.year < y.year ∨
    x.year = y.year ∧ (x.month < y.month ∨ x.month = y.month ∧ x.day ≤ y.day)

theorem le_iff {x y : Date} : x ≤ y ↔ x.year < y.year ∨
    x.year = y.year ∧ (x.month < y.month ∨ x.month = y.month ∧ x.day ≤ y.day) := Iff.rfl

theorem ext {x y : Date} (hyear : x.year = y.year) (hmonth : x.month = y.month)
    (hday : x.day = y.day) : x = y := by
  have hx := of?_self x
  rw [hyear, hmonth, hday, of?_self] at hx
  exact (Option.some.inj hx).symm

/-- The days before a date in its month, its year and the years before. -/
theorem dayNumber_eq (x : Date) : ∃ m d, x.month = m + 1 ∧ x.day = d + 1 ∧
    d < monthLength x.year (m + 1) ∧ m + 1 ≤ 12 ∧
    x.dayNumber = daysBeforeYear x.year + (daysThrough x.year m + d : ℕ) := by
  obtain ⟨hmonth, hmonth'⟩ := x.month_mem
  obtain ⟨hday, hday'⟩ := x.day_mem
  refine ⟨x.month - 1, x.day - 1, by omega, by omega, ?_, by omega, ?_⟩
  · rw [Nat.sub_add_cancel hmonth]
    omega
  · rw [dayNumber]
    omega

theorem dayNumber_mem_year (x : Date) :
    daysBeforeYear x.year ≤ x.dayNumber ∧ x.dayNumber < daysBeforeYear (x.year + 1) := by
  obtain ⟨m, d, -, -, hd, hm, hnumber⟩ := x.dayNumber_eq
  have hsucc := daysThrough_succ x.year m
  have hle := daysThrough_mono x.year hm
  rw [daysBeforeYear_succ]
  omega

theorem year_eq_of_dayNumber {x : Date} {y : ℤ} (h : daysBeforeYear y ≤ x.dayNumber)
    (h' : x.dayNumber < daysBeforeYear (y + 1)) : x.year = y := by
  obtain ⟨hlow, hhigh⟩ := x.dayNumber_mem_year
  have hle := daysBeforeYear_strictMono.lt_iff_lt.mp (hlow.trans_lt h')
  have hge := daysBeforeYear_strictMono.lt_iff_lt.mp (h.trans_lt hhigh)
  omega

/-- The order of dates is that of their numbers. -/
theorem le_iff_dayNumber_le {x y : Date} : x ≤ y ↔ x.dayNumber ≤ y.dayNumber := by
  obtain ⟨m, d, hm, hd, hlength, -, hnumber⟩ := x.dayNumber_eq
  obtain ⟨m', d', hm', hd', hlength', -, hnumber'⟩ := y.dayNumber_eq
  -- a date of an earlier month has a smaller number
  have hmonth (z : ℤ) (e : ℕ) {a b c : ℕ} (hab : a < b) (hc : c < monthLength z (a + 1)) :
      daysThrough z a + c < daysThrough z b + e := by
    have hsucc := daysThrough_succ z a
    have hle := daysThrough_mono z (show a + 1 ≤ b from hab)
    omega
  obtain ⟨hyear, hyear'⟩ := x.dayNumber_mem_year
  obtain ⟨hyear₁, hyear₁'⟩ := y.dayNumber_mem_year
  rw [le_iff]
  rcases lt_trichotomy x.year y.year with hlt | heq | hgt
  · have hle := daysBeforeYear_strictMono.monotone (Int.add_one_le_iff.mpr hlt)
    exact ⟨fun _ => by omega, fun _ => Or.inl hlt⟩
  · rw [heq] at hnumber hlength ⊢
    rcases lt_trichotomy m m' with hlt | rfl | hgt
    · have hless := hmonth y.year d' hlt hlength
      omega
    · omega
    · have hless := hmonth y.year d hgt hlength'
      omega
  · have hle := daysBeforeYear_strictMono.monotone (Int.add_one_le_iff.mpr hgt)
    omega

theorem dayNumber_injective {x y : Date} (h : x.dayNumber = y.dayNumber) : x = y := by
  have hle := le_iff.mp (le_iff_dayNumber_le.mpr h.le)
  have hge := le_iff.mp (le_iff_dayNumber_le.mpr h.ge)
  exact ext (by omega) (by omega) (by omega)

instance : PartialOrder Date where
  le_refl _ := le_iff_dayNumber_le.mpr le_rfl
  le_trans _ _ _ h h' :=
    le_iff_dayNumber_le.mpr ((le_iff_dayNumber_le.mp h).trans (le_iff_dayNumber_le.mp h'))
  le_antisymm _ _ h h' := dayNumber_injective
    ((le_iff_dayNumber_le.mp h).antisymm (le_iff_dayNumber_le.mp h'))

/-! ### The date with a number -/

/-- A number within a year of the calendar belongs to a date. -/
theorem ofDayNumber?_of_year {n : ℤ} (h : minYear ≤ yearOfDay n ∧ yearOfDay n ≤ maxYear) :
    ∃ x, ofDayNumber? n = some x ∧ x.dayNumber = n := by
  obtain ⟨hlow, hhigh⟩ := yearOfDay_spec n
  rw [daysBeforeYear_succ] at hhigh
  obtain ⟨m, d, hpair, hd, hsum⟩ := monthAndDay_spec (y := yearOfDay n) (k := 11) (m := 0)
    (r := (n - daysBeforeYear (yearOfDay n)).toNat) (by
      show 0 + _ < daysThrough (yearOfDay n) 12
      omega)
  have hsum' : daysThrough (yearOfDay n) m + d = (n - daysBeforeYear (yearOfDay n)).toNat :=
    hsum.trans (Nat.zero_add _)
  refine ⟨⟨yearOfDay n, m + 1, d + 1, h, by omega, hd⟩, ?_, ?_⟩
  · rw [ofDayNumber?, hpair]
    exact of?_eq_some_iff.mpr ⟨rfl, rfl, rfl⟩
  · show daysBeforeYear (yearOfDay n) + (daysThrough (yearOfDay n) m : ℤ) + ((d + 1 : ℕ) : ℤ) - 1 = n
    omega

theorem yearOfDay_dayNumber (x : Date) : yearOfDay x.dayNumber = x.year := by
  obtain ⟨hlow, hhigh⟩ := yearOfDay_spec x.dayNumber
  exact (year_eq_of_dayNumber hlow hhigh).symm

theorem ofDayNumber?_eq_some_iff {n : ℤ} {x : Date} :
    ofDayNumber? n = some x ↔ x.dayNumber = n := by
  constructor
  · intro h
    have hyear := (of?_eq_some_iff.mp h).1
    have hmem := x.year_mem
    rw [hyear] at hmem
    obtain ⟨x', hx', hnumber⟩ := ofDayNumber?_of_year hmem
    rw [h] at hx'
    rw [Option.some.inj hx', hnumber]
  · rintro rfl
    have hmem := x.year_mem
    rw [← yearOfDay_dayNumber] at hmem
    obtain ⟨x', hx', hnumber⟩ := ofDayNumber?_of_year hmem
    rw [hx', dayNumber_injective hnumber]

theorem addDays?_eq_some_iff {x y : Date} {n : ℤ} :
    x.addDays? n = some y ↔ y.dayNumber = x.dayNumber + n :=
  ofDayNumber?_eq_some_iff

/-! ### The day after -/

/-- The day after by counting: the next day of the month, or else the first of the next month, or
else the first of the next year. -/
def following? (x : Date) : Option Date :=
  of? x.year x.month (x.day + 1) <|> of? x.year (x.month + 1) 1 <|> of? (x.year + 1) 1 1

theorem of?_cases (y : ℤ) (m d : ℕ) :
    (∃ x, of? y m d = some x ∧ x.dayNumber = daysBeforeYear y + daysThrough y (m - 1) + d - 1) ∨
      of? y m d = none ∧ ¬ ((minYear ≤ y ∧ y ≤ maxYear) ∧ 1 ≤ d ∧ d ≤ monthLength y m) := by
  rw [of?]
  split
  · next hmem => exact Or.inl ⟨_, rfl, rfl⟩
  · next hmem => exact Or.inr ⟨rfl, hmem⟩

/-- Behind the last day of a month come as many days as its year has through this month. -/
theorem dayNumber_of_last {x : Date} (h : x.day = monthLength x.year x.month) :
    x.dayNumber + 1 = daysBeforeYear x.year + daysThrough x.year x.month := by
  have hsucc := daysThrough_succ x.year (x.month - 1)
  rw [Nat.sub_add_cancel x.month_mem.1, ← h] at hsucc
  rw [dayNumber]
  omega

/-- Counting goes on for a day, or ends with the last day of the calendar. -/
theorem following?_cases (x : Date) :
    (∃ y, x.following? = some y ∧ y.dayNumber = x.dayNumber + 1) ∨
      x.following? = none ∧ x.dayNumber + 1 = daysBeforeYear (maxYear + 1) := by
  have hmem := x.year_mem
  have hmonth := x.month_mem
  have hday := x.day_mem
  rw [following?]
  rcases of?_cases x.year x.month (x.day + 1) with ⟨y, hy, hnumber⟩ | ⟨hy, hend⟩
  · refine Or.inl ⟨y, by rw [hy]; rfl, ?_⟩
    rw [hnumber, dayNumber]
    omega
  · -- the last day of a month
    have hlast := dayNumber_of_last (show x.day = monthLength x.year x.month by omega)
    rw [hy]
    rcases of?_cases x.year (x.month + 1) 1 with ⟨y, hy, hnumber⟩ | ⟨hy, hend⟩
    · refine Or.inl ⟨y, by rw [hy]; rfl, ?_⟩
      rw [hnumber, hlast, Nat.add_sub_cancel]
      omega
    · -- the last day of a year
      have htwelve : x.month = 12 := by
        by_contra hne
        exact hend ⟨hmem, le_rfl, monthLength_pos (by omega) (by omega)⟩
      rw [htwelve, ← daysBeforeYear_succ] at hlast
      rw [hy]
      rcases of?_cases (x.year + 1) 1 1 with ⟨y, hy, hnumber⟩ | ⟨hy, hend⟩
      · refine Or.inl ⟨y, hy, ?_⟩
        rw [hnumber, hlast]
        show _ + ((0 : ℕ) : ℤ) + ((1 : ℕ) : ℤ) - 1 = _
        omega
      · have hjanuary : 1 ≤ monthLength (x.year + 1) 1 := monthLength_pos le_rfl (by decide)
        rw [show x.year + 1 = maxYear + 1 by omega] at hlast
        exact Or.inr ⟨hy, hlast⟩

/-- The day after is the one that counting leads to. -/
theorem next?_eq_following? (x : Date) : x.next? = x.following? := by
  rcases x.following?_cases with ⟨y, hy, hnumber⟩ | ⟨hnone, hlast⟩
  · rw [hy]
    exact addDays?_eq_some_iff.mpr hnumber
  · rw [hnone]
    cases hnext : x.next? with
    | none => rfl
    | some y =>
      -- the day after would lie in a year past the last one
      have hlt := y.dayNumber_mem_year.2
      rw [addDays?_eq_some_iff.mp hnext, hlast] at hlt
      have hpast := daysBeforeYear_strictMono.lt_iff_lt.mp hlt
      have hmem := y.year_mem
      omega

/-- A day of a month that is not the last one is followed by the next day of the month. -/
theorem next?_of_day_lt {x : Date} (h : x.day < monthLength x.year x.month) :
    ∃ y, x.next? = some y ∧ y.year = x.year ∧ y.month = x.month ∧ y.day = x.day + 1 := by
  rcases of?_cases x.year x.month (x.day + 1) with ⟨y, hy, -⟩ | ⟨-, hend⟩
  · refine ⟨y, ?_, of?_eq_some_iff.mp hy⟩
    rw [next?_eq_following?, following?, hy]
    rfl
  · exact absurd ⟨x.year_mem, by omega, h⟩ hend

/-- After the last day of a month comes the first day of another month: of the next one, or of
January. -/
theorem next?_of_last {x y : Date} (hlast : x.day = monthLength x.year x.month)
    (h : x.next? = some y) :
    y.day = 1 ∧ (y.year = x.year ∧ y.month = x.month + 1 ∨
      x.month = 12 ∧ y.year = x.year + 1 ∧ y.month = 1) := by
  have hmonth := x.month_mem
  rw [next?_eq_following?, following?] at h
  rcases of?_cases x.year x.month (x.day + 1) with ⟨z, hz, -⟩ | ⟨hnone, -⟩
  · obtain ⟨hyear, hmonth', hday⟩ := of?_eq_some_iff.mp hz
    have hle := z.day_mem.2
    rw [hyear, hmonth', hday] at hle
    omega
  · rw [hnone] at h
    rcases of?_cases x.year (x.month + 1) 1 with ⟨z, hz, -⟩ | ⟨hnone, hend⟩
    · rw [hz] at h
      obtain rfl := Option.some.inj h
      obtain ⟨hyear, hmonth', hday⟩ := of?_eq_some_iff.mp hz
      exact ⟨hday, Or.inl ⟨hyear, hmonth'⟩⟩
    · rw [hnone] at h
      obtain ⟨hyear, hmonth', hday⟩ := of?_eq_some_iff.mp h
      refine ⟨hday, Or.inr ⟨?_, hyear, hmonth'⟩⟩
      by_contra hne
      exact hend ⟨x.year_mem, le_rfl, monthLength_pos (by omega) (by omega)⟩

theorem previous?_eq_some_iff {x y : Date} : x.previous? = some y ↔ y.next? = some x := by
  rw [previous?, next?, addDays?_eq_some_iff, addDays?_eq_some_iff]
  omega

/-- Before a day of a month that is not the first one comes a day of the same month. -/
theorem previous?_of_one_lt {x : Date} (h : 1 < x.day) :
    ∃ y, x.previous? = some y ∧ y.year = x.year ∧ y.month = x.month ∧ y.day + 1 = x.day := by
  have hday := x.day_mem
  let y : Date := ⟨x.year, x.month, x.day - 1, x.year_mem, by omega⟩
  have hsucc : y.day + 1 = x.day := Nat.sub_add_cancel hday.1
  obtain ⟨z, hz, hyear, hmonth, hday'⟩ := next?_of_day_lt (x := y)
    (show y.day < monthLength x.year x.month by omega)
  obtain rfl : z = x := ext hyear hmonth (hday'.trans hsucc)
  exact ⟨y, previous?_eq_some_iff.mpr hz, rfl, rfl, hsucc⟩

/-- Before the first day of a month comes the last one of another month. -/
theorem previous?_of_first {x y : Date} (hfirst : x.day = 1) (h : x.previous? = some y) :
    y.day = monthLength y.year y.month ∧ (x.year = y.year ∧ x.month = y.month + 1 ∨
      y.month = 12 ∧ x.year = y.year + 1 ∧ x.month = 1) := by
  have hnext := previous?_eq_some_iff.mp h
  have hday := y.day_mem
  have hlast : y.day = monthLength y.year y.month := by
    by_contra hne
    -- otherwise the day after would not be the first one
    obtain ⟨z, hz, -, -, hday'⟩ := next?_of_day_lt (x := y) (by omega)
    obtain rfl := Option.some.inj (hnext.symm.trans hz)
    omega
  exact ⟨hlast, (next?_of_last hlast hnext).2⟩

/-- Only in the last year of the calendar may no day come after. -/
theorem exists_next? {x : Date} (h : x.year < maxYear) : ∃ y, x.next? = some y := by
  rw [next?_eq_following?]
  rcases x.following?_cases with ⟨y, hy, -⟩ | ⟨-, hlast⟩
  · exact ⟨y, hy⟩
  · have hlt := x.dayNumber_mem_year.2
    have hle := daysBeforeYear_strictMono.monotone (Int.add_one_le_iff.mpr h)
    have hlt' := daysBeforeYear_strictMono (Int.lt_add_one_iff.mpr (le_refl maxYear))
    omega

end Date

/-! ### The days of the calendar -/

/-- The numbers of the days that the calendar has. -/
def calendarDays : Set ℤ :=
  Set.Ico (daysBeforeYear minYear) (daysBeforeYear (maxYear + 1))

theorem mem_calendarDays {n : ℤ} :
    n ∈ calendarDays ↔ daysBeforeYear minYear ≤ n ∧ n < daysBeforeYear (maxYear + 1) := Iff.rfl

namespace Date

theorem dayNumber_mem (x : Date) : x.dayNumber ∈ calendarDays := by
  obtain ⟨hmin, hmax⟩ := x.year_mem
  obtain ⟨hlow, hhigh⟩ := x.dayNumber_mem_year
  have hfirst := daysBeforeYear_strictMono.monotone hmin
  have hlast := daysBeforeYear_strictMono.monotone (Int.add_le_add_right hmax 1)
  exact ⟨hfirst.trans hlow, hhigh.trans_le hlast⟩

/-- The calendar has a date for each of its days. -/
theorem exists_dayNumber_iff {n : ℤ} : (∃ x : Date, x.dayNumber = n) ↔ n ∈ calendarDays := by
  constructor
  · rintro ⟨x, rfl⟩
    exact x.dayNumber_mem
  · rintro ⟨hmin, hmax⟩
    obtain ⟨hlow, hhigh⟩ := yearOfDay_spec n
    have hfirst := daysBeforeYear_strictMono.lt_iff_lt.mp (hmin.trans_lt hhigh)
    have hlast := daysBeforeYear_strictMono.lt_iff_lt.mp (hlow.trans_lt hmax)
    obtain ⟨x, -, hx⟩ := ofDayNumber?_of_year (n := n) ⟨by omega, by omega⟩
    exact ⟨x, hx⟩

/-- Between two dates no number is left out. -/
theorem exists_dayNumber {x y : Date} {n : ℤ} (hx : x.dayNumber ≤ n) (hy : n ≤ y.dayNumber) :
    ∃ z : Date, z.dayNumber = n :=
  exists_dayNumber_iff.mpr ⟨x.dayNumber_mem.1.trans hx, hy.trans_lt y.dayNumber_mem.2⟩

theorem addDays?_eq_none_iff {x : Date} {n : ℤ} :
    x.addDays? n = none ↔ x.dayNumber + n ∉ calendarDays := by
  rw [← exists_dayNumber_iff, Option.eq_none_iff_forall_ne_some, not_exists]
  exact forall_congr' fun y => not_congr addDays?_eq_some_iff

end Date

/-! ### The days of the week -/

/-- The day of the week of the day with a number, inside the calendar or outside. -/
def weekdayOn (n : ℤ) : Weekday :=
  Weekday.ofIndex ((n + 1) % 7).toNat

theorem Date.weekday_eq (x : Date) : x.weekday = weekdayOn x.dayNumber := rfl

theorem Weekday.index_lt (w : Weekday) : w.index < 7 := by
  cases w <;> decide

theorem Weekday.index_ofIndex {n : ℕ} (h : n < 7) : (Weekday.ofIndex n).index = n := by
  interval_cases n <;> rfl

theorem weekdayOn_eq_iff {n : ℤ} {w : Weekday} : weekdayOn n = w ↔ (n + 1) % 7 = w.index := by
  have hindex := Weekday.index_ofIndex (n := ((n + 1) % 7).toNat) (by omega)
  constructor
  · rintro rfl
    rw [weekdayOn, hindex]
    omega
  · intro h
    rw [weekdayOn, h, Int.toNat_natCast, Weekday.ofIndex_index]

end Reckon.Calendar
