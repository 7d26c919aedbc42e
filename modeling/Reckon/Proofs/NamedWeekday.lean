/-
Weekdays near today.

The next and the last occurrence of a weekday lie among the seven days after today and the seven
days before it, and without a direction the week around today is meant, from Sunday to Saturday. Any
seven days in a row have every weekday once, so there is one such day, which the calendar may not
have at its ends. Asking for the next occurrence again and again goes on by a week each time.

* `existsUnique_weekdayOn` : every weekday comes once in seven days.
* `spokenDays` : the seven days that are spoken of.
* `mem_spokenDays_iff` : among them the shift to a weekday leads to the one that falls on it.
* `resolve?_namedWeekday` : what a query for a weekday resolves to, alone and in a row.
-/
import Mathlib
import Reckon.Proofs.DayShift

namespace Reckon.DatePhrase

open Calendar

/-! ### Seven days in a row -/

/-- Every weekday comes once in seven days. -/
theorem existsUnique_weekdayOn (first : ℤ) (w : Weekday) :
    ∃! n, n ∈ Set.Icc first (first + 6) ∧ weekdayOn n = w := by
  have hlt := w.index_lt
  simp only [Set.mem_Icc, weekdayOn_eq_iff]
  -- the remainder by seven tells how many days after the first one it comes
  refine ⟨first + (w.index - 1 - first) % 7, ⟨⟨by omega, by omega⟩, by omega⟩, ?_⟩
  rintro n ⟨⟨hlow, hhigh⟩, hn⟩
  omega

/-- The days that a qualifier speaks of: the seven days after today, the seven days before it, or
the week that holds it, from Sunday to Saturday. -/
def spokenDays (today : ℤ) : Qualifier → Set ℤ
  | .next => Set.Icc (today + 1) (today + 7)
  | .last => Set.Icc (today - 7) (today - 1)
  | .nearest => {n | ∃ sunday, weekdayOn sunday = .sunday ∧
      today ∈ Set.Icc sunday (sunday + 6) ∧ n ∈ Set.Icc sunday (sunday + 6)}

/-- The days that a qualifier speaks of are seven days in a row. -/
theorem exists_spokenDays_eq (today : ℤ) (q : Qualifier) :
    ∃ first, spokenDays today q = Set.Icc first (first + 6) := by
  cases q with
  | next => exact ⟨today + 1, by rw [spokenDays, add_assoc]; rfl⟩
  | last => exact ⟨today - 7, by rw [spokenDays, show today - 7 + 6 = today - 1 by ring]⟩
  | nearest =>
    refine ⟨today - (today + 1) % 7, Set.ext fun n => ?_⟩
    simp only [spokenDays, Set.mem_ofPred_eq, weekdayOn_eq_iff, Set.mem_Icc, Weekday.index]
    constructor
    · rintro ⟨sunday, hsunday, htoday, hn⟩
      omega
    · intro hn
      exact ⟨today - (today + 1) % 7, by omega, by omega, hn⟩

theorem existsUnique_mem_spokenDays (today : ℤ) (q : Qualifier) (w : Weekday) :
    ∃! n, n ∈ spokenDays today q ∧ weekdayOn n = w := by
  obtain ⟨first, hdays⟩ := exists_spokenDays_eq today q
  rw [hdays]
  exact existsUnique_weekdayOn first w

/-! ### The shift to a weekday -/

/-- The shift leads to a day that is spoken of and falls on the weekday. -/
theorem add_weekdayShift (today : ℤ) (w : Weekday) (q : Qualifier) :
    today + weekdayShift (weekdayOn today) w q ∈ spokenDays today q ∧
      weekdayOn (today + weekdayShift (weekdayOn today) w q) = w := by
  have hlt := w.index_lt
  have htoday := weekdayOn_eq_iff.mp (rfl : weekdayOn today = weekdayOn today)
  -- within the week the shift has less than seven days, and a week is added where it is due
  cases q with
  | next =>
    simp only [weekdayShift, spokenDays, Set.mem_Icc, weekdayOn_eq_iff]
    split <;> omega
  | last =>
    simp only [weekdayShift, spokenDays, Set.mem_Icc, weekdayOn_eq_iff]
    split <;> omega
  | nearest =>
    simp only [weekdayShift, spokenDays, Set.mem_ofPred_eq, Set.mem_Icc, weekdayOn_eq_iff]
    refine ⟨⟨today - (weekdayOn today).index, ?_, by omega, by omega⟩, by omega⟩
    rw [Weekday.index]
    omega

theorem mem_spokenDays_iff {today n : ℤ} {w : Weekday} {q : Qualifier} :
    n ∈ spokenDays today q ∧ weekdayOn n = w ↔ n = today + weekdayShift (weekdayOn today) w q := by
  constructor
  · exact fun h => (existsUnique_mem_spokenDays today q w).unique h (add_weekdayShift today w q)
  · rintro rfl
    exact add_weekdayShift today w q

theorem resolve?_eq_addDays? (now : Moment) (hour : ℕ) (w : Weekday) (q : Qualifier) :
    (Query.namedWeekday w q).resolve? now hour =
      now.addDays? (weekdayShift (weekdayOn now.date.dayNumber) w q) :=
  shiftDays?_eq_addDays? now _

/-! ### Again and again -/

variable {t : Moment} {hour : ℕ} {w : Weekday}

/-- On a weekday itself the next one is a week away. -/
theorem resolve?_next_of_weekday (h : t.date.weekday = w) :
    (Query.namedWeekday w .next).resolve? t hour = t.addDays? 7 := by
  rw [resolve?_eq_addDays?, ← Date.weekday_eq, h]
  simp [weekdayShift]

theorem weekday_of_addDays?_seven {u : Moment} (h : t.addDays? 7 = some u) :
    u.date.weekday = t.date.weekday := by
  rw [Date.weekday_eq, Date.weekday_eq, weekdayOn_eq_iff, (Moment.addDays?_eq_some_iff.mp h).1,
    ← weekdayOn_eq_iff.mp rfl]
  omega

/-- Asking for the next occurrence on a weekday itself goes on by a week each time. -/
theorem resolveChain?_replicate_next (h : t.date.weekday = w) (k : ℕ) :
    resolveChain? hour t (List.replicate k (.namedWeekday w .next)) = t.addDays? (7 * k) := by
  induction k generalizing t with
  | zero => exact (Moment.addDays?_eq_some_iff.mpr ⟨(add_zero _).symm, rfl⟩).symm
  | succ k ih =>
    rw [List.replicate_succ, resolveChain?, resolve?_next_of_weekday h,
      show (7 * (k + 1 : ℕ) : ℤ) = 7 + 7 * k by push_cast; ring,
      ← Moment.addDays?_addDays? (by decide) (by omega)]
    exact Option.bind_congr fun u hu => ih ((weekday_of_addDays?_seven hu).trans h)

/-- A query for a weekday resolves to the one day that falls on it among the seven days that the
qualifier speaks of, at the time of day of now, and to nothing exactly if the calendar does not have
that day. The next occurrence asked for again and again comes a week later each time. -/
theorem resolve?_namedWeekday (now : Moment) (hour : ℕ) (w : Weekday) :
    (∀ q, (∃! n, n ∈ spokenDays now.date.dayNumber q ∧ weekdayOn n = w) ∧
      (∀ t, (Query.namedWeekday w q).resolve? now hour = some t ↔
        t.date.dayNumber ∈ spokenDays now.date.dayNumber q ∧ t.date.weekday = w ∧
          t.time = now.time) ∧
      ((Query.namedWeekday w q).resolve? now hour = none ↔
        ¬ ∃ n ∈ spokenDays now.date.dayNumber q, weekdayOn n = w ∧ n ∈ calendarDays)) ∧
    (∀ k t, resolveChain? hour now (List.replicate (k + 1) (.namedWeekday w .next)) = some t ↔
      ∃ first, (Query.namedWeekday w .next).resolve? now hour = some first ∧
        t.date.dayNumber = first.date.dayNumber + 7 * k ∧ t.time = first.time) := by
  constructor
  · intro q
    refine ⟨existsUnique_mem_spokenDays now.date.dayNumber q w, fun t => ?_, ?_⟩
    · rw [resolve?_eq_addDays?, Moment.addDays?_eq_some_iff, ← mem_spokenDays_iff, and_assoc,
        Date.weekday_eq]
    · rw [resolve?_eq_addDays?, Moment.addDays?_eq_none_iff, not_iff_not]
      constructor
      · intro hmem
        obtain ⟨hspoken, hday⟩ := add_weekdayShift now.date.dayNumber w q
        exact ⟨_, hspoken, hday, hmem⟩
      · rintro ⟨n, hspoken, hday, hmem⟩
        rwa [← mem_spokenDays_iff.mp ⟨hspoken, hday⟩]
  · intro k t
    rw [List.replicate_succ, resolveChain?, Option.bind_eq_some_iff]
    refine exists_congr fun first => and_congr_right fun hfirst => ?_
    rw [resolve?_eq_addDays?, Moment.addDays?_eq_some_iff, ← mem_spokenDays_iff] at hfirst
    -- the first result falls on the weekday, and from there on the chain goes by weeks
    rw [resolveChain?_replicate_next hfirst.1.2, Moment.addDays?_eq_some_iff]

end Reckon.DatePhrase
