/-
Dates so many months away.

Months are numbered through the years, so that a shift by months is addition of their numbers, also
before the year zero. The day of the month stays, unless the month is too short for it. This clamping
is all that a shift loses: it keeps the order of dates, and two shifts lead to the month that their
sum leads to, but the day may have been clamped in the month between.

* `Date.le_iff_monthNumber` : dates are ordered by their months and days.
* `Date.addMonths?_eq_some_iff`, `Date.exists_addMonths?_iff` : shifting by months.
* `Date.addMonths?_mono` : shifting keeps the order.
* `Date.addMonths?_addMonths?` : one shift after another.
* `shiftMonths?_clamps` : what shifts of moments by months and years do.
-/
import Mathlib
import Reckon.Proofs.DayShift

namespace Reckon.Calendar

/-! ### The numbers of months -/

/-- The numbers of the months that the calendar has. -/
def calendarMonths : Set ℤ :=
  Set.Ico (12 * minYear) (12 * (maxYear + 1))

theorem mem_calendarMonths {n : ℤ} :
    n ∈ calendarMonths ↔ 12 * minYear ≤ n ∧ n < 12 * (maxYear + 1) := Iff.rfl

namespace Date

variable {x y z : Date} {n : ℤ}

theorem monthNumber_eq (x : Date) : x.monthNumber = 12 * x.year + x.month - 1 := rfl

theorem monthNumber_mem (x : Date) : x.monthNumber ∈ calendarMonths := by
  have hyear := x.year_mem
  have hmonth := x.month_mem
  rw [mem_calendarMonths, monthNumber_eq]
  omega

/-- The number of a month tells its year and its place in the year. -/
theorem monthNumber_eq_iff : x.monthNumber = n ↔ x.year = n / 12 ∧ x.month = (n % 12).toNat + 1 := by
  have hmonth := x.month_mem
  rw [monthNumber_eq]
  omega

theorem monthNumber_eq_monthNumber_iff :
    x.monthNumber = y.monthNumber ↔ x.year = y.year ∧ x.month = y.month := by
  have hmonth := x.month_mem
  have hmonth' := y.month_mem
  rw [monthNumber_eq, monthNumber_eq]
  omega

theorem le_iff_monthNumber : x ≤ y ↔
    x.monthNumber < y.monthNumber ∨ x.monthNumber = y.monthNumber ∧ x.day ≤ y.day := by
  have hmonth := x.month_mem
  have hmonth' := y.month_mem
  rw [le_iff, monthNumber_eq, monthNumber_eq]
  omega

/-! ### Shifted dates -/

theorem addMonths?_eq_some_iff : x.addMonths? n = some y ↔
    y.monthNumber = x.monthNumber + n ∧ y.day = min x.day (monthLength y.year y.month) := by
  rw [addMonths?, of?_eq_some_iff, monthNumber_eq_iff, and_assoc]
  refine and_congr_right fun hyear => and_congr_right fun hmonth => ?_
  rw [hyear, hmonth]

theorem exists_addMonths?_iff :
    (∃ y, x.addMonths? n = some y) ↔ x.monthNumber + n ∈ calendarMonths := by
  constructor
  · rintro ⟨y, hy⟩
    rw [← (addMonths?_eq_some_iff.mp hy).1]
    exact y.monthNumber_mem
  · intro hmem
    rw [mem_calendarMonths] at hmem
    have hlength : 1 ≤ monthLength ((x.monthNumber + n) / 12) (((x.monthNumber + n) % 12).toNat + 1) :=
      monthLength_pos (by omega) (by omega)
    have hday := x.day_mem.1
    refine ⟨⟨(x.monthNumber + n) / 12, ((x.monthNumber + n) % 12).toNat + 1, _, by omega,
      le_min hday hlength, min_le_right _ _⟩, ?_⟩
    exact of?_eq_some_iff.mpr ⟨rfl, rfl, rfl⟩

theorem addMonths?_eq_none_iff : x.addMonths? n = none ↔ x.monthNumber + n ∉ calendarMonths := by
  rw [← exists_addMonths?_iff, ← Option.ne_none_iff_exists', not_not]

/-- Shifting keeps the order of dates: of two dates of one month both are clamped alike. -/
theorem addMonths?_mono {x' y' : Date} (hle : x ≤ y) (hx : x.addMonths? n = some x')
    (hy : y.addMonths? n = some y') : x' ≤ y' := by
  obtain ⟨hmonth, hday⟩ := addMonths?_eq_some_iff.mp hx
  obtain ⟨hmonth', hday'⟩ := addMonths?_eq_some_iff.mp hy
  rw [le_iff_monthNumber] at hle ⊢
  rcases hle with hlt | ⟨heq, hle⟩
  · exact Or.inl (by omega)
  · have hsame : x'.monthNumber = y'.monthNumber := by omega
    obtain ⟨hyear, hmonth⟩ := monthNumber_eq_monthNumber_iff.mp hsame
    rw [hday, hday', hyear, hmonth]
    exact Or.inr ⟨hsame, min_le_min_right _ hle⟩

/-- Two shifts lead to the month of their sum, and to its day unless the month between is shorter. -/
theorem addMonths?_addMonths? {a b : ℤ} (hy : x.addMonths? a = some y) (hz : y.addMonths? b = some z) :
    ∃ u, x.addMonths? (a + b) = some u ∧ z.monthNumber = u.monthNumber ∧
      z.day = min u.day (monthLength y.year y.month) := by
  obtain ⟨hmonth, hday⟩ := addMonths?_eq_some_iff.mp hy
  obtain ⟨hmonth', hday'⟩ := addMonths?_eq_some_iff.mp hz
  have hsum : z.monthNumber = x.monthNumber + (a + b) := by rw [hmonth', hmonth, add_assoc]
  obtain ⟨u, hu⟩ := exists_addMonths?_iff.mpr (hsum ▸ z.monthNumber_mem)
  obtain ⟨hmonth'', hday''⟩ := addMonths?_eq_some_iff.mp hu
  have hsame : z.monthNumber = u.monthNumber := hsum.trans hmonth''.symm
  obtain ⟨hyear, hmonth⟩ := monthNumber_eq_monthNumber_iff.mp hsame
  refine ⟨u, hu, hsame, ?_⟩
  rw [hday', hday, hday'', hyear, hmonth, min_right_comm]

/-- A day that every month has is not clamped. -/
theorem addMonths?_addMonths?_of_le {a b : ℤ} (hday : x.day ≤ 28) (hy : x.addMonths? a = some y)
    (hz : y.addMonths? b = some z) : x.addMonths? (a + b) = some z := by
  obtain ⟨u, hu, hmonth, hclamped⟩ := addMonths?_addMonths? hy hz
  have hlength := le_monthLength (y := y.year) y.month_mem.1 y.month_mem.2
  have hle : u.day ≤ 28 := by
    rw [(addMonths?_eq_some_iff.mp hu).2]
    exact min_le_of_left_le hday
  rw [min_eq_left (hle.trans hlength)] at hclamped
  obtain ⟨hyear, hmonth⟩ := monthNumber_eq_monthNumber_iff.mp hmonth
  rw [hu, ext hyear hmonth hclamped]

end Date

namespace Moment

variable {t t' : Moment} {n : ℤ}

theorem addMonths?_eq_some_iff :
    t.addMonths? n = some t' ↔ t.date.addMonths? n = some t'.date ∧ t'.time = t.time := by
  rw [addMonths?, Option.map_eq_some_iff]
  constructor
  · rintro ⟨date, hdate, rfl⟩
    exact ⟨hdate, rfl⟩
  · rintro ⟨hdate, htime⟩
    exact ⟨t'.date, hdate, by rw [← htime]⟩

theorem addMonths?_eq_none_iff : t.addMonths? n = none ↔ t.date.monthNumber + n ∉ calendarMonths := by
  rw [addMonths?, Option.map_eq_none_iff, Date.addMonths?_eq_none_iff]

end Moment

end Reckon.Calendar

namespace Reckon.DatePhrase

open Calendar

/-- No month of the calendar is as far from another as the bound on counts. -/
theorem addMonths?_of_countBound_le (t : Moment) {n : ℤ} (h : countBound ≤ n.natAbs) :
    t.addMonths? n = none := by
  refine Moment.addMonths?_eq_none_iff.mpr fun hmem => ?_
  have hmonth := t.date.monthNumber_mem
  rw [mem_calendarMonths] at hmonth hmem
  -- the calendar has less than 2 ^ 23 months
  simp only [minYear, maxYear] at hmonth hmem
  rw [show countBound = 2147483648 from rfl] at h
  omega

theorem shiftMonths?_eq_addMonths? (t : Moment) (n : ℤ) : shiftMonths? t n = t.addMonths? n :=
  ite_countBound (fun _ => addMonths?_of_countBound_le t) n

theorem shift?_months (t : Moment) (amount : ℤ) : shift? t amount .months = t.addMonths? amount :=
  shiftMonths?_eq_addMonths? t amount

/-- Years are twelve months each, also where there are too many of them. -/
theorem shift?_years (t : Moment) (amount : ℤ) :
    shift? t amount .years = t.addMonths? (12 * amount) := by
  rw [← shift?_months]
  exact bind_multiple? (fun _ hfar => if_neg (Nat.not_lt.mpr hfar)) 12 amount

/-- A shift by months leads to the month with the shifted number, if the calendar has it, to the same
day or the last one of a shorter month, and keeps the time of day. Years are twelve months each.
Shifting keeps the order of dates. After two shifts the month is that of their sum, and the day is
the one that the sum leads to, or the last one of the month between if that is shorter. -/
theorem shiftMonths?_clamps :
    (∀ (t : Moment) (n : ℤ),
      ((∃ t', shiftMonths? t n = some t') ↔
        12 * t.date.year + t.date.month - 1 + n ∈ calendarMonths) ∧
      ∀ t', shiftMonths? t n = some t' ↔
        12 * t'.date.year + t'.date.month - 1 = 12 * t.date.year + t.date.month - 1 + n ∧
          t'.date.day = min t.date.day (monthLength t'.date.year t'.date.month) ∧
          t'.time = t.time) ∧
    (∀ (now : Moment) (hour : ℕ) (baseDays amount : ℤ),
      (Query.relativeArithmetic baseDays amount .months).resolve? now hour =
          (shiftDays? now baseDays).bind (fun base => shiftMonths? base amount) ∧
        (Query.relativeArithmetic baseDays amount .years).resolve? now hour =
          (shiftDays? now baseDays).bind (fun base => shiftMonths? base (12 * amount))) ∧
    (∀ (t u t' u' : Moment) (n : ℤ), t.date ≤ u.date → shiftMonths? t n = some t' →
      shiftMonths? u n = some u' → t'.date ≤ u'.date) ∧
    (∀ (t t' t'' : Moment) (a b : ℤ), shiftMonths? t a = some t' → shiftMonths? t' b = some t'' →
      ∃ u, shiftMonths? t (a + b) = some u ∧
        t''.date.year = u.date.year ∧ t''.date.month = u.date.month ∧
        t''.date.day = min u.date.day (monthLength t'.date.year t'.date.month) ∧
        t''.date.day ≤ u.date.day ∧ t''.time = u.time ∧ (t.date.day ≤ 28 → t'' = u)) := by
  simp only [shiftMonths?_eq_addMonths?]
  refine ⟨fun t n => ⟨?_, fun t' => ?_⟩, fun now hour baseDays amount => ⟨?_, ?_⟩, ?_, ?_⟩
  · rw [← Date.monthNumber_eq, ← Option.ne_none_iff_exists', ne_eq, Moment.addMonths?_eq_none_iff,
      not_not]
  · rw [Moment.addMonths?_eq_some_iff, Date.addMonths?_eq_some_iff, and_assoc]
    rfl
  · rw [shiftDays?_eq_addDays?, resolve?_relativeArithmetic]
    exact Option.bind_congr fun base _ => shift?_months base amount
  · rw [shiftDays?_eq_addDays?, resolve?_relativeArithmetic]
    exact Option.bind_congr fun base _ => shift?_years base amount
  · intro t u t' u' n hle ht hu
    exact Date.addMonths?_mono hle (Moment.addMonths?_eq_some_iff.mp ht).1
      (Moment.addMonths?_eq_some_iff.mp hu).1
  · intro t t' t'' a b ht ht'
    obtain ⟨hdate, htime⟩ := Moment.addMonths?_eq_some_iff.mp ht
    obtain ⟨hdate', htime'⟩ := Moment.addMonths?_eq_some_iff.mp ht'
    obtain ⟨date, hsum, hmonth, hday⟩ := Date.addMonths?_addMonths? hdate hdate'
    obtain ⟨hyear, hmonth⟩ := Date.monthNumber_eq_monthNumber_iff.mp hmonth
    have htime'' : t''.time = t.time := htime'.trans htime
    refine ⟨⟨date, t.time⟩, Moment.addMonths?_eq_some_iff.mpr ⟨hsum, rfl⟩, hyear, hmonth, hday,
      hday.trans_le (min_le_left _ _), htime'', fun hle => Moment.ext ?_ htime''⟩
    rw [Date.addMonths?_addMonths?_of_le hle hdate hdate'] at hsum
    rw [Option.some.inj hsum]

/-- From two days of a March back to the end of February, and on to the December before the year
zero: the days that February cuts off stay cut off. -/
theorem shiftMonths?_clamps_leapDay :
    ∃ t u t' u' t'' u'' : Moment, t.date ≤ u.date ∧
      shiftMonths? t (-1) = some t' ∧ shiftMonths? u (-1) = some u' ∧ t'.date ≤ u'.date ∧
      shiftMonths? t' (-2) = some t'' ∧ shiftMonths? u' (-2) = some u'' ∧
      (t''.date.year, t''.date.month, t''.date.day) = (-1, 12, 28) ∧
      (u''.date.year, u''.date.month, u''.date.day) = (-1, 12, 29) ∧
      t.date.day ≤ 28 ∧ shiftMonths? t (-1 + -2) = some t'' ∧
      ∃ v, shiftMonths? u (-1 + -2) = some v ∧ u''.date.month = v.date.month ∧
        u''.date.day = min v.date.day (monthLength u'.date.year u'.date.month) := by
  let t : Moment := ⟨⟨0, 3, 28, by decide, by decide⟩, TimeOfDay.ofSeconds 0⟩
  let t' : Moment := ⟨⟨0, 2, 28, by decide, by decide⟩, TimeOfDay.ofSeconds 0⟩
  let t'' : Moment := ⟨⟨-1, 12, 28, by decide, by decide⟩, TimeOfDay.ofSeconds 0⟩
  let u : Moment := ⟨⟨0, 3, 31, by decide, by decide⟩, TimeOfDay.ofSeconds 0⟩
  let u' : Moment := ⟨⟨0, 2, 29, by decide, by decide⟩, TimeOfDay.ofSeconds 0⟩
  let u'' : Moment := ⟨⟨-1, 12, 29, by decide, by decide⟩, TimeOfDay.ofSeconds 0⟩
  have hle : t.date ≤ u.date := Date.le_iff.mpr (by decide)
  have ht : shiftMonths? t (-1) = some t' := by decide
  have hu : shiftMonths? u (-1) = some u' := by decide
  have ht' : shiftMonths? t' (-2) = some t'' := by decide
  have hu' : shiftMonths? u' (-2) = some u'' := by decide
  obtain ⟨-, -, hmono, htwice⟩ := shiftMonths?_clamps
  obtain ⟨s, hs, -, -, -, -, -, hsame⟩ := htwice t t' t'' (-1) (-2) ht ht'
  obtain ⟨v, hv, -, hmonth, hday, -⟩ := htwice u u' u'' (-1) (-2) hu hu'
  obtain rfl := hsame (by decide)
  exact ⟨t, u, t', u', t'', u'', hle, ht, hu, hmono t u t' u' (-1) hle ht hu, ht', hu', rfl, rfl,
    by decide, hs, v, hv, hmonth, hday⟩

end Reckon.DatePhrase
