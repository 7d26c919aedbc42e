/-
Dates so many days away.

Days and weeks are counted with bounds: a count of days has to stay below one, and an amount of
weeks times seven below another. The calendar is so short that no date of it lies beyond these
bounds, so a shift by days is addition of day numbers without any bound, and it fails only where the
calendar has no date. Shifts that are carried out one after another add up, as long as none of them
leaves the calendar on the way, and their order does not count.

* `ite_countBound`, `bind_multiple?` : the bounds on counts and amounts never count.
* `shiftDays?_eq_addDays?` : shifting by days is addition of day numbers.
* `resolveChain?` : queries asked one after another.
* `shiftAll?_eq_some_iff` : where shifts one after another lead to.
* `resolve?_dayShifts` : what queries about days and weeks resolve to, alone and in a row.
-/
import Mathlib
import Reckon.DatePhrase.Resolve
import Reckon.Proofs.DayNumber

namespace Reckon.Calendar.Moment

variable {t t' : Moment} {n : ℤ}

theorem ext (hday : t.date.dayNumber = t'.date.dayNumber) (htime : t.time = t'.time) : t = t' := by
  obtain ⟨date, time⟩ := t
  obtain rfl : date = t'.date := Date.dayNumber_injective hday
  rw [show time = t'.time from htime]

theorem addDays?_eq_some_iff : t.addDays? n = some t' ↔
    t'.date.dayNumber = t.date.dayNumber + n ∧ t'.time = t.time := by
  rw [addDays?, Option.map_eq_some_iff]
  constructor
  · rintro ⟨date, hdate, rfl⟩
    exact ⟨Date.addDays?_eq_some_iff.mp hdate, rfl⟩
  · rintro ⟨hdate, htime⟩
    exact ⟨t'.date, Date.addDays?_eq_some_iff.mpr hdate, by rw [← htime]⟩

theorem addDays?_eq_none_iff : t.addDays? n = none ↔ t.date.dayNumber + n ∉ calendarDays := by
  rw [addDays?, Option.map_eq_none_iff, Date.addDays?_eq_none_iff]

theorem exists_addDays? (h : t.date.dayNumber + n ∈ calendarDays) : ∃ u, t.addDays? n = some u :=
  Option.ne_none_iff_exists'.mp fun hnone => addDays?_eq_none_iff.mp hnone h

/-- Shifts forward can be taken together. -/
theorem addDays?_addDays? {n k : ℤ} (hn : 0 ≤ n) (hk : 0 ≤ k) (t : Moment) :
    ((t.addDays? n).bind fun u => u.addDays? k) = t.addDays? (n + k) := by
  ext t'
  rw [Option.bind_eq_some_iff, addDays?_eq_some_iff]
  constructor
  · rintro ⟨u, hu, ht'⟩
    obtain ⟨hday, htime⟩ := addDays?_eq_some_iff.mp hu
    obtain ⟨hday', htime'⟩ := addDays?_eq_some_iff.mp ht'
    exact ⟨by rw [hday', hday, add_assoc], htime'.trans htime⟩
  · rintro ⟨hday, htime⟩
    -- the calendar has the day between, since it has those before and after
    have hmem : t.date.dayNumber + n ∈ calendarDays := by
      have hfirst := t.date.dayNumber_mem
      have hlast := t'.date.dayNumber_mem
      rw [mem_calendarDays] at hfirst hlast ⊢
      omega
    obtain ⟨u, hu⟩ := exists_addDays? hmem
    obtain ⟨hday', htime'⟩ := addDays?_eq_some_iff.mp hu
    exact ⟨u, hu, addDays?_eq_some_iff.mpr
      ⟨by rw [hday, hday', add_assoc], htime.trans htime'.symm⟩⟩

end Reckon.Calendar.Moment

namespace Reckon.DatePhrase

open Calendar

variable {t t' : Moment} {hour : ℕ}

/-! ### Bounds -/

/-- No day of the calendar is as far from another as the bound on counts. -/
theorem addDays?_of_countBound_le (t : Moment) {n : ℤ} (h : countBound ≤ n.natAbs) :
    t.addDays? n = none := by
  refine Moment.addDays?_eq_none_iff.mpr fun hmem => ?_
  have hday := t.date.dayNumber_mem
  rw [mem_calendarDays] at hday hmem
  -- the calendar has less than 2 ^ 28 days
  simp only [daysBeforeYear, minYear, maxYear] at hday hmem
  rw [show countBound = 2147483648 from rfl] at h
  omega

/-- The bound on counts does not count where nothing is so far away. -/
theorem ite_countBound {f : ℤ → Option Moment} (hf : ∀ n : ℤ, countBound ≤ n.natAbs → f n = none)
    (n : ℤ) : (if n.natAbs < countBound then f n else none) = f n := by
  split
  · rfl
  · next hfar => exact (hf n (Nat.le_of_not_lt hfar)).symm

/-- Nor does the bound on amounts: a multiple that is refused is larger than any count. -/
theorem bind_multiple? {f : ℤ → Option Moment} (hf : ∀ n : ℤ, countBound ≤ n.natAbs → f n = none)
    (k amount : ℤ) : (multiple? k amount).bind f = f (k * amount) := by
  rw [multiple?]
  split
  · rfl
  · next hlarge =>
    rw [show amountBound = 9223372036854775808 from rfl] at hlarge
    -- whatever is beyond 63 binary digits is beyond 31
    refine (hf _ ?_).symm
    rw [show countBound = 2147483648 from rfl]
    omega

theorem shiftDays?_eq_addDays? (t : Moment) (n : ℤ) : shiftDays? t n = t.addDays? n :=
  ite_countBound (fun _ => addDays?_of_countBound_le t) n

/-- The days of a unit, if it always has as many. -/
def DateUnit.length? : DateUnit → Option ℤ
  | days => some 1
  | weeks => some 7
  | months => none
  | years => none

theorem shift?_eq_addDays? {unit : DateUnit} {k : ℤ} (h : unit.length? = some k) (t : Moment)
    (amount : ℤ) : shift? t amount unit = t.addDays? (k * amount) := by
  rw [← shiftDays?_eq_addDays?]
  cases unit with
  | days =>
    obtain rfl := Option.some.inj h
    rw [one_mul]
    rfl
  | weeks =>
    obtain rfl := Option.some.inj h
    exact bind_multiple? (fun _ hfar => if_neg (Nat.not_lt.mpr hfar)) 7 amount
  | months => cases h
  | years => cases h

/-! ### Shifts one after another -/

/-- The moment that shifts by days lead to, one after another. -/
def shiftAll? : Moment → List ℤ → Option Moment
  | t, [] => some t
  | t, n :: ns => (t.addDays? n).bind fun u => shiftAll? u ns

theorem shiftAll?_singleton (t : Moment) (n : ℤ) : shiftAll? t [n] = t.addDays? n :=
  Option.bind_fun_some _

theorem shiftAll?_append (t : Moment) (ns ks : List ℤ) :
    shiftAll? t (ns ++ ks) = (shiftAll? t ns).bind fun u => shiftAll? u ks := by
  induction ns generalizing t with
  | nil => rfl
  | cons n ns ih =>
    rw [List.cons_append, shiftAll?, shiftAll?, Option.bind_assoc]
    exact Option.bind_congr fun u _ => ih u

/-- The numbers of the days that shifts pass through, with the day they begin at. -/
def way (t : Moment) (ns : List ℤ) : List ℤ :=
  ns.scanl (· + ·) t.date.dayNumber

theorem way_cons {t u : Moment} {n : ℤ} (h : t.addDays? n = some u) (ns : List ℤ) :
    way t (n :: ns) = t.date.dayNumber :: way u ns := by
  rw [way, way, List.scanl_cons, (Moment.addDays?_eq_some_iff.mp h).1]

theorem shiftAll?_spec {ns : List ℤ} (h : shiftAll? t ns = some t') :
    (∀ k ∈ way t ns, k ∈ calendarDays) ∧
      t'.date.dayNumber = t.date.dayNumber + ns.sum ∧ t'.time = t.time := by
  induction ns generalizing t with
  | nil =>
    obtain rfl := Option.some.inj h
    refine ⟨?_, (add_zero _).symm, rfl⟩
    rw [way, List.scanl_nil, List.forall_mem_singleton]
    exact t.date.dayNumber_mem
  | cons n ns ih =>
    obtain ⟨u, hu, hrest⟩ := Option.bind_eq_some_iff.mp h
    obtain ⟨hway, hday, htime⟩ := ih hrest
    obtain ⟨hday', htime'⟩ := Moment.addDays?_eq_some_iff.mp hu
    rw [way_cons hu, List.forall_mem_cons, List.sum_cons]
    exact ⟨⟨t.date.dayNumber_mem, hway⟩, by rw [hday, hday', add_assoc], htime.trans htime'⟩

theorem exists_shiftAll? {ns : List ℤ} (h : ∀ k ∈ way t ns, k ∈ calendarDays) :
    ∃ t', shiftAll? t ns = some t' := by
  induction ns generalizing t with
  | nil => exact ⟨t, rfl⟩
  | cons n ns ih =>
    -- the first shift leads to the second day on the way
    have hnext : t.date.dayNumber + n ∈ calendarDays := by
      refine h _ ?_
      cases ns <;> simp [way]
    obtain ⟨u, hu⟩ := Moment.exists_addDays? hnext
    rw [way_cons hu, List.forall_mem_cons] at h
    obtain ⟨t', ht'⟩ := ih h.2
    exact ⟨t', by rw [shiftAll?, hu, Option.bind_some, ht']⟩

/-- Shifts lead to their sum if none of them leaves the calendar on the way. -/
theorem shiftAll?_eq_some_iff {ns : List ℤ} : shiftAll? t ns = some t' ↔
    (∀ k ∈ way t ns, k ∈ calendarDays) ∧
      t'.date.dayNumber = t.date.dayNumber + ns.sum ∧ t'.time = t.time := by
  refine ⟨shiftAll?_spec, fun ⟨hway, hday, htime⟩ => ?_⟩
  obtain ⟨u, hu⟩ := exists_shiftAll? hway
  obtain ⟨-, hday', htime'⟩ := shiftAll?_spec hu
  rw [hu, Moment.ext (hday'.trans hday.symm) (htime'.trans htime.symm)]

theorem shiftAll?_eq_none_iff {ns : List ℤ} :
    shiftAll? t ns = none ↔ ∃ k ∈ way t ns, k ∉ calendarDays := by
  rw [← not_iff_not, ← ne_eq, Option.ne_none_iff_exists']
  push Not
  exact ⟨fun ⟨t', ht'⟩ => (shiftAll?_spec ht').1, exists_shiftAll?⟩

theorem forall_mem_way_pair {p : ℤ → Prop} {n k : ℤ} : (∀ d ∈ way t [n, k], p d) ↔
    p t.date.dayNumber ∧ p (t.date.dayNumber + n) ∧ p (t.date.dayNumber + n + k) := by
  simp [way]

/-! ### Queries one after another -/

/-- The moment that queries ask for one after another, each of them asked at the moment that the one
before asks for. -/
def resolveChain? (hour : ℕ) : Moment → List Query → Option Moment
  | now, [] => some now
  | now, q :: qs => (q.resolve? now hour).bind fun t => resolveChain? hour t qs

/-- The queries about days and weeks. -/
inductive DayQuery
  | near (days : ℤ)
  | byDays (baseDays amount : ℤ)
  | byWeeks (baseDays amount : ℤ)

/-- As a query. -/
def DayQuery.query : DayQuery → Query
  | near days => .relative days
  | byDays baseDays amount => .relativeArithmetic baseDays amount .days
  | byWeeks baseDays amount => .relativeArithmetic baseDays amount .weeks

/-- The shifts by days that the query asks for. -/
def DayQuery.shifts : DayQuery → List ℤ
  | near days => [days]
  | byDays baseDays amount => [baseDays, amount]
  | byWeeks baseDays amount => [baseDays, 7 * amount]

theorem resolve?_relative (now : Moment) (days : ℤ) :
    (Query.relative days).resolve? now hour = now.addDays? days :=
  shiftDays?_eq_addDays? now days

theorem resolve?_relativeArithmetic (now : Moment) (baseDays amount : ℤ) (unit : DateUnit) :
    (Query.relativeArithmetic baseDays amount unit).resolve? now hour =
      (now.addDays? baseDays).bind fun base => shift? base amount unit := by
  rw [← shiftDays?_eq_addDays?]
  rfl

/-- The query leads to the base first, and from there on. -/
theorem resolve?_shifted {unit : DateUnit} {k : ℤ} (h : unit.length? = some k) (now : Moment)
    (baseDays amount : ℤ) : (Query.relativeArithmetic baseDays amount unit).resolve? now hour =
      shiftAll? now [baseDays, k * amount] := by
  rw [resolve?_relativeArithmetic, shiftAll?]
  refine Option.bind_congr fun base _ => ?_
  rw [shift?_eq_addDays? h, shiftAll?_singleton]

theorem resolve?_dayQuery (q : DayQuery) (now : Moment) :
    q.query.resolve? now hour = shiftAll? now q.shifts := by
  cases q with
  | near days => exact (resolve?_relative now days).trans (shiftAll?_singleton now days).symm
  | byDays baseDays amount =>
    have hdays : DateUnit.days.length? = some 1 := rfl
    show (Query.relativeArithmetic baseDays amount .days).resolve? now hour = _
    rw [resolve?_shifted hdays, one_mul]
    rfl
  | byWeeks baseDays amount =>
    have hweeks : DateUnit.weeks.length? = some 7 := rfl
    exact resolve?_shifted hweeks now baseDays amount

theorem resolveChain?_dayQuery (qs : List DayQuery) (now : Moment) :
    resolveChain? hour now (qs.map DayQuery.query) = shiftAll? now (qs.flatMap DayQuery.shifts) := by
  induction qs generalizing now with
  | nil => rfl
  | cons q qs ih =>
    rw [List.map_cons, resolveChain?, List.flatMap_cons, shiftAll?_append, resolve?_dayQuery]
    exact Option.bind_congr fun t _ => ih t

/-- A query about days or weeks resolves to the moment whose day has the number of today plus the
days of the shift, at the same time of day, and to nothing exactly if the calendar does not have that
day or the one that is shifted. Asked one after another such queries add up, and in any order that
stays in the calendar they lead to the same moment. -/
theorem resolve?_dayShifts (now : Moment) (hour : ℕ) :
    (∀ days, (∀ t, (Query.relative days).resolve? now hour = some t ↔
        t.date.dayNumber = now.date.dayNumber + days ∧ t.time = now.time) ∧
      ((Query.relative days).resolve? now hour = none ↔
        now.date.dayNumber + days ∉ calendarDays)) ∧
    (∀ (unit : DateUnit) k, unit.length? = some k → ∀ baseDays amount,
      (∀ t, (Query.relativeArithmetic baseDays amount unit).resolve? now hour = some t ↔
        now.date.dayNumber + baseDays ∈ calendarDays ∧
          t.date.dayNumber = now.date.dayNumber + baseDays + k * amount ∧ t.time = now.time) ∧
      ((Query.relativeArithmetic baseDays amount unit).resolve? now hour = none ↔
        now.date.dayNumber + baseDays ∉ calendarDays ∨
          now.date.dayNumber + baseDays + k * amount ∉ calendarDays)) ∧
    (∀ (qs : List DayQuery) t, resolveChain? hour now (qs.map DayQuery.query) = some t ↔
      (∀ n ∈ way now (qs.flatMap DayQuery.shifts), n ∈ calendarDays) ∧
        t.date.dayNumber = now.date.dayNumber + (qs.flatMap DayQuery.shifts).sum ∧
        t.time = now.time) ∧
    (∀ (qs qs' : List DayQuery) t t', qs.Perm qs' →
      resolveChain? hour now (qs.map DayQuery.query) = some t →
      resolveChain? hour now (qs'.map DayQuery.query) = some t' → t' = t) := by
  refine ⟨fun days => ?_, fun unit k hunit baseDays amount => ?_, fun qs t => ?_, ?_⟩
  · rw [resolve?_relative]
    exact ⟨fun t => Moment.addDays?_eq_some_iff, Moment.addDays?_eq_none_iff⟩
  · rw [resolve?_shifted hunit]
    -- on the way lie now, the base and the day that is asked for
    have hnow := now.date.dayNumber_mem
    constructor
    · intro t
      rw [shiftAll?_eq_some_iff, forall_mem_way_pair, List.sum_pair, ← add_assoc]
      refine ⟨fun h => ⟨h.1.2.1, h.2⟩, fun h => ⟨⟨hnow, h.1, ?_⟩, h.2⟩⟩
      rw [← h.2.1]
      exact t.date.dayNumber_mem
    · rw [← not_iff_not, shiftAll?_eq_none_iff]
      push Not
      rw [forall_mem_way_pair]
      exact and_iff_right hnow
  · rw [resolveChain?_dayQuery, shiftAll?_eq_some_iff]
  · intro qs qs' t t' hperm ht ht'
    rw [resolveChain?_dayQuery, shiftAll?_eq_some_iff] at ht ht'
    have hsum := (hperm.flatMap_right DayQuery.shifts).sum_eq
    exact Moment.ext (by rw [ht.2.1, ht'.2.1, hsum]) (ht'.2.2.trans ht.2.2.symm)

/-- From the 28th of February of a leap year: six days on by way of the day before, and 374 days on
in two orders. -/
theorem resolve?_dayShifts_leapDay :
    ∃ now u t t' : Moment, DateUnit.weeks.length? = some 7 ∧
      (Query.relativeArithmetic (-1) 1 .weeks).resolve? now 12 = some u ∧
      (u.date.year, u.date.month, u.date.day) = (2024, 3, 5) ∧
      [DayQuery.near 2, .byWeeks (-1) 1, .byDays 1 365].Perm
        [.byDays 1 365, .near 2, .byWeeks (-1) 1] ∧
      resolveChain? 12 now [.relative 2, .relativeArithmetic (-1) 1 .weeks,
        .relativeArithmetic 1 365 .days] = some t ∧
      resolveChain? 12 now [.relativeArithmetic 1 365 .days, .relative 2,
        .relativeArithmetic (-1) 1 .weeks] = some t' ∧
      t' = t ∧ (t.date.year, t.date.month, t.date.day) = (2025, 3, 8) := by
  let now : Moment := ⟨⟨2024, 2, 28, by decide, by decide⟩, TimeOfDay.ofSeconds 52200⟩
  let u : Moment := ⟨⟨2024, 3, 5, by decide, by decide⟩, TimeOfDay.ofSeconds 52200⟩
  let t : Moment := ⟨⟨2025, 3, 8, by decide, by decide⟩, TimeOfDay.ofSeconds 52200⟩
  have hperm : [DayQuery.near 2, .byWeeks (-1) 1, .byDays 1 365].Perm
      [.byDays 1 365, .near 2, .byWeeks (-1) 1] :=
    List.perm_append_singleton (DayQuery.byDays 1 365) [.near 2, .byWeeks (-1) 1]
  have ht : resolveChain? 12 now [.relative 2, .relativeArithmetic (-1) 1 .weeks,
      .relativeArithmetic 1 365 .days] = some t := by decide
  have ht' : resolveChain? 12 now [.relativeArithmetic 1 365 .days, .relative 2,
      .relativeArithmetic (-1) 1 .weeks] = some t := by decide
  obtain ⟨-, hweeks, -, horder⟩ := resolve?_dayShifts now 12
  have hu := ((hweeks .weeks 7 rfl (-1) 1).1 u).mpr
    ⟨mem_calendarDays.mpr (by decide), by decide, rfl⟩
  exact ⟨now, u, t, t, rfl, hu, rfl, hperm, ht, ht', horder _ _ t t hperm ht ht', rfl⟩

end Reckon.DatePhrase
