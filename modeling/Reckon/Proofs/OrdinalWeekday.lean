/-
Weekdays counted in a month.

The days of a month are walked through from the first one on until the month changes, and for the
last weekday from the end of the month backward. Both walks pass through the same list of dates. Each
of them is later than the one before, so the place of a date in the walk is the number of dates
before it. The walks differ only where the calendar ends: a day that no day comes after is not
counted. A month has four whole weeks and not five, so it has every weekday four or five times.

* `takeWhile_onward`, `takeWhile_backward` : the walks through a month.
* `findWeekday?_nth`, `findWeekday?_last` : what they find.
* `getElem?_eq_some_iff` : the place of a date is the number of dates before it.
* `length_weekdayDates` : a month has every weekday four or five times.
* `findWeekday?_counts` : which date an ordinal names, and when there is none.
-/
import Mathlib
import Reckon.DatePhrase.Resolve
import Reckon.Proofs.DayNumber

namespace Reckon.DatePhrase

open Calendar

variable {x : Date} {y : ℤ} {m k : ℕ} {w : Weekday}

/-! ### The dates of a month -/

/-- The dates of a month with the days from `d` on, `k` of them. -/
def datesFrom (y : ℤ) (m d k : ℕ) : List Date :=
  (List.range' d k).filterMap (Date.of? y m)

/-- The dates of a month. -/
def monthDates (y : ℤ) (m : ℕ) : List Date :=
  datesFrom y m 1 (monthLength y m)

theorem datesFrom_succ (x : Date) (k : ℕ) : datesFrom x.year x.month x.day (k + 1) =
    x :: datesFrom x.year x.month (x.day + 1) k := by
  rw [datesFrom, List.range'_succ, List.filterMap_cons_some x.of?_self]
  rfl

theorem datesFrom_concat (x : Date) : datesFrom x.year x.month 1 x.day =
    datesFrom x.year x.month 1 (x.day - 1) ++ [x] := by
  obtain ⟨d, hd⟩ := Nat.exists_eq_add_of_le' x.day_mem.1
  have hself : [x.day].filterMap (Date.of? x.year x.month) = [x] := by
    rw [List.filterMap_cons_some x.of?_self, List.filterMap_nil]
  rw [datesFrom, datesFrom, hd, Nat.add_sub_cancel, List.range'_concat, List.filterMap_append,
    ← hself, hd, one_mul, Nat.add_comm 1 d]

theorem mem_monthDates : x ∈ monthDates y m ↔ x.year = y ∧ x.month = m := by
  rw [monthDates, datesFrom, List.mem_filterMap]
  constructor
  · rintro ⟨d, -, hd⟩
    obtain ⟨hyear, hmonth, -⟩ := Date.of?_eq_some_iff.mp hd
    exact ⟨hyear, hmonth⟩
  · rintro ⟨rfl, rfl⟩
    have hday := x.day_mem
    exact ⟨x.day, List.mem_range'_1.mpr (by omega), x.of?_self⟩

theorem pairwise_monthDates (y : ℤ) (m : ℕ) : (monthDates y m).Pairwise (· < ·) := by
  refine List.pairwise_filterMap.mpr ((List.pairwise_lt_range' 1 (by decide)).imp ?_)
  intro d d' hlt a ha b hb
  obtain ⟨hyear, hmonth, hday⟩ := Date.of?_eq_some_iff.mp ha
  obtain ⟨hyear', hmonth', hday'⟩ := Date.of?_eq_some_iff.mp hb
  rw [lt_iff_le_not_ge, Date.le_iff, Date.le_iff]
  omega

/-! ### Walks through a month -/

theorem takeWhile_onward_of_ne (h : x.month ≠ m) (k : ℕ) :
    (x.onward k).takeWhile (fun d => d.month == m) = [] := by
  cases k with
  | zero => rfl
  | succ k =>
    cases hnext : x.next? with
    | none => rw [Date.onward_succ_of_none hnext, List.takeWhile_nil]
    | some z =>
      rw [Date.onward_succ hnext]
      exact List.takeWhile_cons_of_neg (by simpa using h)

theorem takeWhile_backward_of_ne (h : x.month ≠ m) (k : ℕ) :
    (x.backward k).takeWhile (fun d => d.month == m) = [] := by
  cases k with
  | zero => rfl
  | succ k =>
    rw [Date.backward]
    exact List.takeWhile_cons_of_neg (by simpa using h)

/-- From a date on, the walk passes through the rest of its month. -/
theorem takeWhile_onward {r : ℕ} (hlength : x.day + r = monthLength x.year x.month) (hk : r < k) :
    (x.onward k).takeWhile (fun d => d.month == x.month) =
      (datesFrom x.year x.month x.day (r + 1)).filter fun d => d.next?.isSome := by
  obtain ⟨k, rfl⟩ := Nat.exists_eq_add_of_lt hk
  -- by the number of days that are left of the month
  induction r generalizing x with
  | zero =>
    rw [datesFrom_succ, datesFrom, List.range'_zero, List.filterMap_nil]
    cases hnext : x.next? with
    | none =>
      -- the last day of the calendar is neither passed through nor counted
      rw [List.filter_cons_of_neg (by simp [hnext]), Date.onward_succ_of_none hnext]
      rfl
    | some z =>
      -- the walk ends where the next month begins
      have hmonth : z.month ≠ x.month := by
        have h := (Date.next?_of_last hlength hnext).2
        omega
      rw [List.filter_cons_of_pos (by simp [hnext]), Date.onward_succ hnext,
        List.takeWhile_cons_of_pos (by simp), takeWhile_onward_of_ne hmonth, List.filter_nil]
  | succ r ih =>
    obtain ⟨z, hnext, hyear, hmonth, hday⟩ := Date.next?_of_day_lt
      (show x.day < monthLength x.year x.month by omega)
    have hrest := ih (x := z) (by rw [hyear, hmonth, hday]; omega) (by omega)
    rw [hyear, hmonth, hday] at hrest
    rw [datesFrom_succ, List.filter_cons_of_pos (by simp [hnext]), ← hrest,
      show r + 1 + k + 1 = r + k + 1 + 1 by omega, Date.onward_succ hnext]
    exact List.takeWhile_cons_of_pos (by simp)

/-- From a date back, the walk passes through its month to the first day. -/
theorem takeWhile_backward (hk : x.day ≤ k) :
    (x.backward k).takeWhile (fun d => d.month == x.month) =
      (datesFrom x.year x.month 1 x.day).reverse := by
  induction k generalizing x with
  | zero => exact absurd x.day_mem.1 (by omega)
  | succ k ih =>
    rw [datesFrom_concat, List.reverse_append, List.reverse_singleton, List.singleton_append]
    by_cases hfirst : x.day = 1
    · -- the walk leaves the month with its first day
      rw [hfirst, Nat.sub_self, datesFrom, List.range'_zero, List.filterMap_nil, List.reverse_nil]
      cases hprevious : x.previous? with
      | none =>
        rw [Date.backward_succ_of_none hprevious, List.takeWhile_cons_of_pos (by simp),
          List.takeWhile_nil]
      | some z =>
        have hmonth : z.month ≠ x.month := by
          have h := (Date.previous?_of_first hfirst hprevious).2
          omega
        rw [Date.backward_succ hprevious, List.takeWhile_cons_of_pos (by simp),
          takeWhile_backward_of_ne hmonth]
    · have hday := x.day_mem.1
      obtain ⟨z, hprevious, hyear, hmonth, hsucc⟩ := Date.previous?_of_one_lt
        (show 1 < x.day by omega)
      have hrest := ih (x := z) (by omega)
      rw [hyear, hmonth] at hrest
      rw [Date.backward_succ hprevious, List.takeWhile_cons_of_pos (by simp), hrest,
        show x.day - 1 = z.day by omega]

/-! ### What the walks find -/

theorem monthDates_eq_nil (h : Date.of? y m 1 = none) : monthDates y m = [] := by
  rw [List.eq_nil_iff_forall_not_mem]
  intro x hx
  obtain ⟨rfl, rfl⟩ := mem_monthDates.mp hx
  have hday := x.day_mem
  rw [Date.of?, dif_pos ⟨x.year_mem, le_rfl, hday.1.trans hday.2⟩] at h
  cases h

/-- The dates of a month that fall on a weekday. -/
def weekdayDates (y : ℤ) (m : ℕ) (w : Weekday) : List Date :=
  (monthDates y m).filter fun d => d.weekday == w

theorem mem_weekdayDates :
    x ∈ weekdayDates y m w ↔ x.year = y ∧ x.month = m ∧ x.weekday = w := by
  rw [weekdayDates, List.mem_filter, mem_monthDates, beq_iff_eq, and_assoc]

/-- The dates of a month that fall on a weekday are counted, but for the last day of the
calendar. -/
theorem findWeekday?_nth (y : ℤ) (m : ℕ) (w : Weekday) (n : ℕ) :
    findWeekday? y m w (.nth (n + 1)) =
      ((weekdayDates y m w).filter fun d => d.next?.isSome)[n]? := by
  rw [weekdayDates, List.filter_comm]
  cases hfirst : Date.of? y m 1 with
  | none =>
    rw [monthDates_eq_nil hfirst, findWeekday?, hfirst]
    rfl
  | some x =>
    obtain ⟨rfl, rfl, hday⟩ := Date.of?_eq_some_iff.mp hfirst
    have hlength := x.day_mem
    have hlongest := monthLength_le x.year x.month
    have hwalk := takeWhile_onward (x := x) (k := longestMonth)
      (r := monthLength x.year x.month - 1) (by omega) (by rw [longestMonth]; omega)
    rw [hday, Nat.sub_add_cancel (hlength.1.trans hlength.2)] at hwalk
    rw [monthDates, ← hwalk, findWeekday?, hfirst]
    rfl

theorem nextMonth?_eq_some_iff : nextMonth? y m = some x ↔
    x.day = 1 ∧ (m ≠ 12 ∧ x.year = y ∧ x.month = m + 1 ∨ m = 12 ∧ x.year = y + 1 ∧ x.month = 1) := by
  rw [nextMonth?]
  split <;> rw [Date.of?_eq_some_iff] <;> omega

/-- A date of the month that the way back from the month after leads to is its last day. -/
theorem year_and_day_of_lastOfMonth? (h : lastOfMonth? y m = some x) (hm : x.month = m) :
    x.year = y ∧ x.day = monthLength x.year x.month := by
  obtain ⟨first, hfirst, hprevious⟩ := Option.bind_eq_some_iff.mp h
  obtain ⟨hday, hmonth⟩ := nextMonth?_eq_some_iff.mp hfirst
  obtain ⟨hlast, hmonth'⟩ := Date.previous?_of_first hday hprevious
  have hmem := x.month_mem
  exact ⟨by omega, hlast⟩

/-- In all years but the last one every month has a last day. -/
theorem exists_lastOfMonth? (hy : minYear ≤ y) (hy' : y < maxYear) (hm : 1 ≤ m) (hm' : m ≤ 12) :
    ∃ x, lastOfMonth? y m = some x ∧ x.month = m := by
  let x : Date := ⟨y, m, monthLength y m, ⟨hy, by omega⟩, monthLength_pos hm hm', le_rfl⟩
  have hyear : x.year = y := rfl
  have hmonth : x.month = m := rfl
  obtain ⟨first, hnext⟩ := Date.exists_next? (x := x) hy'
  obtain ⟨hday, hmonth'⟩ := Date.next?_of_last (x := x) rfl hnext
  have hmem := first.month_mem
  have hfirst : nextMonth? y m = some first := nextMonth?_eq_some_iff.mpr ⟨hday, by omega⟩
  exact ⟨x, Option.bind_eq_some_iff.mpr ⟨first, hfirst, Date.previous?_eq_some_iff.mpr hnext⟩,
    hmonth⟩

/-- If the month has a last day, the last of its dates that fall on a weekday is found. -/
theorem findWeekday?_last (h : lastOfMonth? y m = some x) (hm : x.month = m) :
    findWeekday? y m w .last = (weekdayDates y m w).getLast? := by
  obtain ⟨rfl, hlast⟩ := year_and_day_of_lastOfMonth? h hm
  subst hm
  have hlongest := monthLength_le x.year x.month
  have hwalk := takeWhile_backward (x := x) (k := longestMonth) (by rw [longestMonth]; omega)
  rw [findWeekday?, h]
  show ((x.backward longestMonth).takeWhile _).find? _ = _
  rw [hwalk, hlast, ← List.head?_filter, List.filter_reverse, List.head?_reverse]
  rfl

/-- Whatever is found lies in the month and falls on the weekday. -/
theorem mem_of_findWeekday? {o : Ordinal} (h : findWeekday? y m w o = some x) :
    x ∈ weekdayDates y m w := by
  cases o with
  | nth n =>
    cases n with
    | zero => cases h
    | succ n =>
      rw [findWeekday?_nth] at h
      exact List.mem_of_mem_filter (List.mem_of_getElem? h)
  | last =>
    cases hlast : lastOfMonth? y m with
    | none =>
      rw [findWeekday?, hlast] at h
      cases h
    | some z =>
      -- before the month after there is another month only for the month zero
      by_cases hm : z.month = m
      · rw [findWeekday?_last hlast hm] at h
        exact List.mem_of_getLast? h
      · rw [findWeekday?, hlast] at h
        change ((z.backward longestMonth).takeWhile _).find? _ = _ at h
        rw [takeWhile_backward_of_ne hm] at h
        cases h

/-! ### Places and numbers -/

theorem pairwise_weekdayDates (y : ℤ) (m : ℕ) (w : Weekday) :
    (weekdayDates y m w).Pairwise (· < ·) :=
  (pairwise_monthDates y m).filter _

/-- No date of the list is before its first one. -/
theorem ncard_before_head {a : Date} {l : List Date} (ha : ∀ z ∈ l, a < z) :
    {z | z ∈ a :: l ∧ z < a}.ncard = 0 := by
  have hempty : {z | z ∈ a :: l ∧ z < a} = ∅ := by
    refine Set.eq_empty_iff_forall_notMem.mpr ?_
    rintro z ⟨hz, hlt⟩
    rcases List.mem_cons.mp hz with rfl | hz
    · exact lt_irrefl z hlt
    · exact lt_asymm hlt (ha z hz)
  rw [hempty, Set.ncard_empty]

/-- The first date of the list is one more before a later one. -/
theorem ncard_before_cons {a : Date} {l : List Date} (ha : ∀ z ∈ l, a < z) (hx : x ∈ l) :
    {z | z ∈ a :: l ∧ z < x}.ncard = {z | z ∈ l ∧ z < x}.ncard + 1 := by
  have hinsert : {z | z ∈ a :: l ∧ z < x} = insert a {z | z ∈ l ∧ z < x} := by
    ext z
    simp only [Set.mem_ofPred_eq, List.mem_cons, Set.mem_insert_iff]
    constructor
    · rintro ⟨rfl | hz, hlt⟩
      · exact Or.inl rfl
      · exact Or.inr ⟨hz, hlt⟩
    · rintro (rfl | ⟨hz, hlt⟩)
      · exact ⟨Or.inl rfl, ha x hx⟩
      · exact ⟨Or.inr hz, hlt⟩
  have hfinite : {z | z ∈ l ∧ z < x}.Finite := (List.finite_toSet l).subset fun z hz => hz.1
  rw [hinsert, Set.ncard_insert_of_notMem (fun hmem => lt_irrefl a (ha a hmem.1)) hfinite]

/-- In a list of dates that become later, the place of a date is the number of dates before it. -/
theorem getElem?_eq_some_iff {l : List Date} (h : l.Pairwise (· < ·)) {n : ℕ} :
    l[n]? = some x ↔ x ∈ l ∧ {z | z ∈ l ∧ z < x}.ncard = n := by
  induction l generalizing n with
  | nil => simp
  | cons a l ih =>
    obtain ⟨ha, hl⟩ := List.pairwise_cons.mp h
    rw [List.mem_cons]
    cases n with
    | zero =>
      rw [List.getElem?_cons_zero, Option.some_inj]
      constructor
      · rintro rfl
        exact ⟨Or.inl rfl, ncard_before_head ha⟩
      · rintro ⟨rfl | hx, hnumber⟩
        · rfl
        · rw [ncard_before_cons ha hx] at hnumber
          cases hnumber
    | succ n =>
      rw [List.getElem?_cons_succ, ih hl]
      constructor
      · rintro ⟨hx, hnumber⟩
        exact ⟨Or.inr hx, by rw [ncard_before_cons ha hx, hnumber]⟩
      · rintro ⟨rfl | hx, hnumber⟩
        · rw [ncard_before_head ha] at hnumber
          cases hnumber
        · rw [ncard_before_cons ha hx] at hnumber
          exact ⟨hx, Nat.succ_injective hnumber⟩

theorem ncard_weekdayDates (y : ℤ) (m : ℕ) (w : Weekday) :
    {x | x ∈ weekdayDates y m w}.ncard = (weekdayDates y m w).length := by
  have hnodup : (weekdayDates y m w).Nodup := (pairwise_weekdayDates y m w).imp ne_of_lt
  rw [← List.toFinset_card_of_nodup hnodup, ← Set.ncard_coe_finset, List.coe_toFinset]

/-- A month has every weekday four or five times. -/
theorem length_weekdayDates (hy : minYear ≤ y) (hy' : y ≤ maxYear) (hm : 1 ≤ m) (hm' : m ≤ 12)
    (w : Weekday) : (weekdayDates y m w).length = 4 ∨ (weekdayDates y m w).length = 5 := by
  have hshort := le_monthLength (y := y) hm hm'
  have hlong := monthLength_le y m
  have hindex := w.index_lt
  let before : ℤ := daysBeforeYear y + daysThrough y (m - 1)
  let v : ℕ := ((w.index - 1 - before) % 7).toNat
  -- the days of the month that fall on the weekday are seven days apart
  have hday (i : ℕ) (hi : i ∈ List.range (monthLength y m)) :
      ((Date.of? y m (1 + i)).map fun d => d.weekday == w).getD false = true ↔
        decide (i ≡ v [MOD 7]) = true := by
    rw [List.mem_range] at hi
    rcases Date.of?_cases y m (1 + i) with ⟨x, hx, hnumber⟩ | ⟨-, hnone⟩
    · rw [hx, Option.map_some, Option.getD_some, beq_iff_eq, decide_eq_true_eq, Date.weekday_eq,
        weekdayOn_eq_iff, hnumber, Nat.ModEq]
      omega
    · exact absurd ⟨⟨hy, hy'⟩, by omega, by omega⟩ hnone
  have hcount : (weekdayDates y m w).length = Nat.count (fun i => i ≡ v [MOD 7]) (monthLength y m) := by
    rw [weekdayDates, ← List.countP_eq_length_filter, monthDates, datesFrom, List.countP_filterMap,
      List.range'_eq_map_range, List.countP_map]
    exact List.countP_congr hday
  rw [hcount, Nat.count_modEq_card _ (by decide)]
  split <;> omega

/-! ### Weekdays by their ordinals -/

/-- The dates of a month that fall on a weekday. -/
def fallingOn (y : ℤ) (m : ℕ) (w : Weekday) : Set Date :=
  {x | x.year = y ∧ x.month = m ∧ x.weekday = w}

theorem setOf_mem_weekdayDates (y : ℤ) (m : ℕ) (w : Weekday) :
    {x | x ∈ weekdayDates y m w} = fallingOn y m w :=
  Set.ext fun _ => mem_weekdayDates

/-- Before the last year of the calendar all dates count. -/
theorem findWeekday?_nth_of_lt (hy : y < maxYear) (n : ℕ) :
    findWeekday? y m w (.nth (n + 1)) = (weekdayDates y m w)[n]? := by
  rw [findWeekday?_nth, List.filter_eq_self.mpr]
  intro x hx
  rw [← (mem_weekdayDates.mp hx).1] at hy
  obtain ⟨z, hz⟩ := Date.exists_next? hy
  rw [hz, Option.isSome_some]

theorem findWeekday?_nth_eq_some_iff (hy : y < maxYear) {n : ℕ} :
    findWeekday? y m w (.nth n) = some x ↔
      1 ≤ n ∧ x ∈ fallingOn y m w ∧ {z ∈ fallingOn y m w | z < x}.ncard = n - 1 := by
  cases n with
  | zero =>
    rw [findWeekday?]
    simp
  | succ n =>
    rw [findWeekday?_nth_of_lt hy, getElem?_eq_some_iff (pairwise_weekdayDates y m w),
      ← setOf_mem_weekdayDates, Nat.add_sub_cancel]
    exact (and_iff_right (Nat.le_add_left 1 n)).symm

theorem findWeekday?_nth_eq_none_iff (hy : y < maxYear) {n : ℕ} :
    findWeekday? y m w (.nth n) = none ↔ n = 0 ∨ (fallingOn y m w).ncard < n := by
  cases n with
  | zero =>
    rw [findWeekday?]
    simp
  | succ n =>
    rw [findWeekday?_nth_of_lt hy, List.getElem?_eq_none_iff, ← setOf_mem_weekdayDates,
      ncard_weekdayDates]
    omega

/-- The latest of the dates that fall on a weekday is the fifth one, or the fourth one if there is no
fifth. -/
theorem getLast?_weekdayDates (hy : minYear ≤ y) (hy' : y ≤ maxYear) (hm : 1 ≤ m) (hm' : m ≤ 12)
    (w : Weekday) : ∃ x, (weekdayDates y m w).getLast? = some x ∧ IsGreatest (fallingOn y m w) x ∧
      (weekdayDates y m w)[4]?.or (weekdayDates y m w)[3]? = some x := by
  have hlength := length_weekdayDates hy hy' hm hm' w
  have hsorted := pairwise_weekdayDates y m w
  rw [← setOf_mem_weekdayDates]
  generalize weekdayDates y m w = l at *
  have hnonempty : l ≠ [] := List.ne_nil_of_length_pos (by omega)
  obtain ⟨x, hlast⟩ := Option.ne_none_iff_exists'.mp (mt List.getLast?_eq_none_iff.mp hnonempty)
  refine ⟨x, hlast, ⟨List.mem_of_getLast? hlast, ?_⟩, ?_⟩
  · obtain ⟨ys, rfl⟩ := List.getLast?_eq_some_iff.mp hlast
    intro z hz
    rcases List.mem_append.mp hz with hz | hz
    · exact ((List.pairwise_append.mp hsorted).2.2 z hz x (List.mem_singleton_self x)).le
    · exact (List.mem_singleton.mp hz).le
  · rw [List.getLast?_eq_getElem?] at hlast
    rcases hlength with hfour | hfive
    · rw [List.getElem?_eq_none_iff.mpr hfour.le, Option.none_or, ← hlast, hfour]
    · rw [hfive] at hlast
      rw [hlast, Option.some_or]

/-- The date that an ordinal and a weekday name in a month is the one with as many such dates of the
month before it as the ordinal says, less one, and there is none if the month has fewer. The last one
is the latest such date of the month, the fifth or else the fourth. In a query the year and the time
of day are those of now. -/
theorem findWeekday?_counts (hy : minYear ≤ y) (hy' : y < maxYear) (m : ℕ) (w : Weekday) :
    (∀ n x, findWeekday? y m w (.nth n) = some x ↔
      1 ≤ n ∧ x ∈ fallingOn y m w ∧ {z ∈ fallingOn y m w | z < x}.ncard = n - 1) ∧
    (∀ n, findWeekday? y m w (.nth n) = none ↔ n = 0 ∨ (fallingOn y m w).ncard < n) ∧
    (1 ≤ m ∧ m ≤ 12 → ∃ x, findWeekday? y m w .last = some x ∧
      IsGreatest (fallingOn y m w) x ∧
      (findWeekday? y m w (.nth 5)).or (findWeekday? y m w (.nth 4)) = some x) ∧
    (¬ (1 ≤ m ∧ m ≤ 12) → ∀ n, findWeekday? y m w (.nth n) = none) ∧
    (∀ (now : Moment) (hour : ℕ) (o : Ordinal) (t : Moment),
      (Query.ordinalWeekday o w m).resolve? now hour = some t ↔
        findWeekday? now.date.year m w o = some t.date ∧ t.date.year = now.date.year ∧
          t.time = now.time) := by
  refine ⟨fun n x => findWeekday?_nth_eq_some_iff hy', fun n => findWeekday?_nth_eq_none_iff hy',
    ?_, ?_, ?_⟩
  · rintro ⟨hm, hm'⟩
    obtain ⟨z, hz, hmonth⟩ := exists_lastOfMonth? hy hy' hm hm'
    rw [findWeekday?_last hz hmonth, findWeekday?_nth_of_lt hy', findWeekday?_nth_of_lt hy']
    exact getLast?_weekdayDates hy hy'.le hm hm' w
  · intro hm n
    rw [Option.eq_none_iff_forall_ne_some]
    intro x hx
    obtain ⟨-, rfl, -⟩ := mem_weekdayDates.mp (mem_of_findWeekday? hx)
    exact hm x.month_mem
  · intro now hour o t
    rw [Query.resolve?, Option.map_eq_some_iff]
    constructor
    · rintro ⟨date, hdate, rfl⟩
      exact ⟨hdate, (mem_weekdayDates.mp (mem_of_findWeekday? hdate)).1, rfl⟩
    · rintro ⟨hdate, -, htime⟩
      exact ⟨t.date, hdate, by rw [← htime]⟩

/-- A February with five Mondays, the last of them on the 29th, and a month that does not exist. -/
theorem findWeekday?_counts_leapDay :
    minYear ≤ 2016 ∧ 2016 < maxYear ∧ ∃ x : Date, (x.year, x.month, x.day) = (2016, 2, 29) ∧
      findWeekday? 2016 2 .monday (.nth 5) = some x ∧
      {z ∈ fallingOn 2016 2 .monday | z < x}.ncard = 4 ∧
      findWeekday? 2016 2 .monday .last = some x ∧ IsGreatest (fallingOn 2016 2 .monday) x ∧
      ∀ n, findWeekday? 2016 13 .monday (.nth n) = none := by
  have hmin : minYear ≤ 2016 := by decide
  have hmax : 2016 < maxYear := by decide
  have hfifth : findWeekday? 2016 2 .monday (.nth 5) =
      some ⟨2016, 2, 29, by decide, by decide⟩ := by decide +kernel
  obtain ⟨hnth, -, hlast, -, -⟩ := findWeekday?_counts hmin hmax 2 .monday
  obtain ⟨-, -, -, hnone, -⟩ := findWeekday?_counts hmin hmax 13 .monday
  obtain ⟨x, hx, hgreatest, hor⟩ := hlast (by decide)
  rw [hfifth, Option.some_or] at hor
  obtain rfl := Option.some.inj hor
  exact ⟨hmin, hmax, _, rfl, hfifth, ((hnth 5 _).mp hfifth).2.2, hx, hgreatest, hnone (by decide)⟩

end Reckon.DatePhrase
