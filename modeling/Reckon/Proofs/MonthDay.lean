/-
Days of a month.

A month and a day ask for the first date, today included, that has them. Most dates come every year,
and only the 29th of February is left out of some. Nine years in a row are tried: a 29th of February
comes within seven years of any other, also across a century that leaves one out, so nothing is
missed that the calendar still holds.

* `le_iff_firstYear_le` : the dates that are not over, told by their years.
* `exists_year` : the years that are tried are enough.
* `nextMonthDay?_eq_some_iff` : what is found is the first date.
* `resolve?_monthDay` : what a query for a month and a day resolves to.
-/
import Mathlib
import Reckon.DatePhrase.Resolve
import Reckon.Proofs.CivilTime

namespace Reckon.DatePhrase

open Calendar

variable {today x : Date} {m d : ℕ}

/-! ### The years that are tried -/

/-- The year of today, or the next one if the month and the day are over. -/
def firstYear (today : Date) (m d : ℕ) : ℤ :=
  if isPast today m d then today.year + 1 else today.year

theorem isPast_iff : isPast today m d = true ↔
    m < today.month ∨ m = today.month ∧ d < today.day := by
  simp [isPast]

/-- A date with the month and the day is not over if its year is not before the first one. -/
theorem le_iff_firstYear_le (hm : x.month = m) (hd : x.day = d) :
    today ≤ x ↔ firstYear today m d ≤ x.year := by
  rw [Date.le_iff, firstYear]
  split
  · next hpast =>
    have h := isPast_iff.mp hpast
    omega
  · next hpast =>
    rw [isPast_iff] at hpast
    omega

/-- Only the 29th of February is in some years and not in others. -/
theorem isLeap_of_monthLength_lt {y z : ℤ} (h : monthLength y m < d) (h' : d ≤ monthLength z m) :
    m = 2 ∧ d = 29 ∧ isLeap z = true := by
  obtain ⟨hm, hm'⟩ : 1 ≤ m ∧ m ≤ 12 := month_mem_of_monthLength_pos (y := z) (by omega)
  have hfebruary (w : ℤ) : monthLength w 2 = if isLeap w then 29 else 28 := rfl
  by_cases htwo : m = 2
  · subst htwo
    have hshort : 28 ≤ monthLength y 2 := le_monthLength hm hm'
    rw [hfebruary] at h'
    by_cases hleap : isLeap z = true
    · rw [if_pos hleap] at h'
      exact ⟨rfl, by omega, hleap⟩
    · rw [if_neg hleap] at h'
      omega
  · have hsame : monthLength y m = monthLength z m := by
      interval_cases m <;> first | rfl | exact absurd rfl htwo
    omega

/-- Within seven years comes a year with a 29th of February. -/
theorem exists_isLeap (y : ℤ) : ∃ k : ℕ, k ≤ 7 ∧ isLeap (y + k) = true := by
  simp only [isLeap, Bool.and_eq_true, Bool.or_eq_true, decide_eq_true_eq]
  -- the next multiple of four, or the one after it where that ends a century
  by_cases hcentury : (y + (-y) % 4) % 100 = 0
  · exact ⟨((-y) % 4).toNat + 4, by omega, by omega⟩
  · exact ⟨((-y) % 4).toNat, by omega, by omega⟩

/-- A day that its month has in some later year it has in one of the years that are tried, and that
one is no later. -/
theorem exists_year {y z : ℤ} (hyz : y ≤ z) (h : d ≤ monthLength z m) :
    ∃ i < yearsTried, y + i ≤ z ∧ d ≤ monthLength (y + i) m := by
  rw [yearsTried]
  by_cases hnear : z < y + 9
  · refine ⟨(z - y).toNat, by omega, by omega, ?_⟩
    rwa [show y + ((z - y).toNat : ℤ) = z by omega]
  · by_cases hfirst : d ≤ monthLength y m
    · exact ⟨0, by decide, by simpa using hyz, by simpa using hfirst⟩
    · obtain ⟨rfl, rfl, -⟩ := isLeap_of_monthLength_lt (Nat.lt_of_not_le hfirst) h
      obtain ⟨k, hk, hleap⟩ := exists_isLeap y
      refine ⟨k, by omega, by omega, ?_⟩
      show 29 ≤ if isLeap (y + k) then 29 else 28
      rw [if_pos hleap]

/-! ### The first date -/

/-- The first hit of a search through the natural numbers below a bound. -/
theorem findSome?_range_eq_some_iff {α : Type} {f : ℕ → Option α} {n : ℕ} {a : α} :
    (List.range n).findSome? f = some a ↔ ∃ i < n, f i = some a ∧ ∀ j < i, f j = none := by
  induction n with
  | zero => simp
  | succ n ih =>
    rw [List.range_succ, List.findSome?_append, Option.or_eq_some_iff, ih,
      List.findSome?_eq_none_iff]
    constructor
    · rintro (⟨i, hi, hfound, hfirst⟩ | ⟨hnone, hlast⟩)
      · exact ⟨i, by omega, hfound, hfirst⟩
      · exact ⟨n, by omega, by simpa using hlast, fun j hj => hnone j (List.mem_range.mpr hj)⟩
    · rintro ⟨i, hi, hfound, hfirst⟩
      by_cases hn : i = n
      · subst hn
        exact Or.inr ⟨fun j hj => hfirst j (List.mem_range.mp hj), by simpa using hfound⟩
      · exact Or.inl ⟨i, by omega, hfound, hfirst⟩

/-- The dates with this month and day that are not over. -/
def Upcoming (today : Date) (m d : ℕ) : Set Date :=
  {x | today ≤ x ∧ x.month = m ∧ x.day = d}

theorem isLeast_of_nextMonthDay? (h : nextMonthDay? today m d = some x) :
    IsLeast (Upcoming today m d) x := by
  obtain ⟨i, hi, hfound, hfirst⟩ := findSome?_range_eq_some_iff.mp h
  change Date.of? (firstYear today m d + i) m d = some x at hfound
  obtain ⟨hyear, hm, hd⟩ := Date.of?_eq_some_iff.mp hfound
  refine ⟨⟨(le_iff_firstYear_le hm hd).mpr (by omega), hm, hd⟩, ?_⟩
  rintro z ⟨hz, hzm, hzd⟩
  have hzyear := (le_iff_firstYear_le hzm hzd).mp hz
  -- an earlier date would have been found first
  have hlate : x.year ≤ z.year := by
    by_contra hless
    have hnone := hfirst (z.year - firstYear today m d).toNat (by omega)
    change Date.of? (firstYear today m d + _) m d = none at hnone
    rw [show firstYear today m d + ((z.year - firstYear today m d).toNat : ℤ) = z.year by omega,
      ← hzm, ← hzd, Date.of?_self] at hnone
    cases hnone
  rw [Date.le_iff]
  omega

theorem exists_nextMonthDay? {z : Date} (hz : z ∈ Upcoming today m d) :
    ∃ x, nextMonthDay? today m d = some x := by
  obtain ⟨hz, hm, hd⟩ := hz
  have hday := z.day_mem
  have hmax := z.year_mem
  have hmin := today.year_mem
  have hfirst : today.year ≤ firstYear today m d := by
    rw [firstYear]
    split <;> omega
  rw [hm, hd] at hday
  obtain ⟨i, hi, hyear, hlength⟩ := exists_year ((le_iff_firstYear_le hm hd).mp hz) hday.2
  have hfound : (Date.of? (firstYear today m d + i) m d).isSome = true := by
    rw [Date.of?, dif_pos ⟨⟨by omega, by omega⟩, hday.1, hlength⟩]
    rfl
  rw [← Option.isSome_iff_exists, nextMonthDay?, List.findSome?_isSome_iff]
  exact ⟨i, List.mem_range.mpr hi, hfound⟩

theorem nextMonthDay?_eq_some_iff :
    nextMonthDay? today m d = some x ↔ IsLeast (Upcoming today m d) x := by
  constructor
  · exact isLeast_of_nextMonthDay?
  · intro h
    obtain ⟨z, hz⟩ := exists_nextMonthDay? h.1
    rw [hz, (isLeast_of_nextMonthDay? hz).unique h]

/-- A query for a month and a day resolves to the first date from now on that has them, at the
hour that is set. It resolves unless there is no such hour, or no such date up to the end of the
calendar. -/
theorem resolve?_monthDay (now : Moment) (hour m d : ℕ) :
    (∀ t, (Query.monthDay m d).resolve? now hour = some t ↔
      IsLeast {x : Date | now.date ≤ x ∧ x.month = m ∧ x.day = d} t.date ∧
        t.time.hour = hour ∧ t.time.minute = 0 ∧ t.time.second = 0) ∧
    ((∃ t, (Query.monthDay m d).resolve? now hour = some t) ↔
      hour ≤ 23 ∧ ∃ x : Date, now.date ≤ x ∧ x.month = m ∧ x.day = d) := by
  have hresolve : (Query.monthDay m d).resolve? now hour =
      (nextMonthDay? now.date m d).bind fun date =>
        (TimeOfDay.of? hour 0 0).map fun time => ⟨date, time⟩ := by
    rw [Query.resolve?]
    cases nextMonthDay? now.date m d with
    | none => rfl
    | some date => cases TimeOfDay.of? hour 0 0 <;> rfl
  constructor
  · intro t
    rw [hresolve, Option.bind_eq_some_iff]
    constructor
    · rintro ⟨date, hdate, ht⟩
      obtain ⟨time, htime, rfl⟩ := Option.map_eq_some_iff.mp ht
      exact ⟨nextMonthDay?_eq_some_iff.mp hdate, TimeOfDay.of?_eq_some_iff.mp htime⟩
    · rintro ⟨hleast, htime⟩
      refine ⟨t.date, nextMonthDay?_eq_some_iff.mpr hleast, ?_⟩
      rw [TimeOfDay.of?_eq_some_iff.mpr htime]
      rfl
  · rw [hresolve]
    constructor
    · rintro ⟨t, ht⟩
      obtain ⟨date, hdate, ht⟩ := Option.bind_eq_some_iff.mp ht
      obtain ⟨time, htime, -⟩ := Option.map_eq_some_iff.mp ht
      have hlt := time.hour_lt
      rw [(TimeOfDay.of?_eq_some_iff.mp htime).1] at hlt
      exact ⟨by omega, date, (nextMonthDay?_eq_some_iff.mp hdate).1⟩
    · rintro ⟨hhour, x, hx⟩
      obtain ⟨date, hdate⟩ := exists_nextMonthDay? hx
      obtain ⟨time, htime, -⟩ | ⟨-, hnone⟩ := TimeOfDay.of?_cases hour 0 0
      · exact ⟨⟨date, time⟩, by rw [hdate, htime]; rfl⟩
      · omega

end Reckon.DatePhrase
