/-
Moments counted in seconds.

A moment has a number as a date has one: the seconds from the first moment of day zero. A moment
shifted by seconds is the moment with the shifted number, so shifts add up, and only the sum of the
number and the shift matters. On the other side stands the clock: a second later the seconds go on,
or else the minutes, the hours, the day of the calendar. Shifting by seconds is letting the clock
run for so many seconds, or running it back.

* `Moment.number` : the seconds before a moment.
* `Moment.addSeconds?_eq_some_iff` : shifting by seconds.
* `Moment.tick?`, `Moment.ticks?` : the clock.
* `Moment.Lies` : a moment so many seconds away, told by the clock.
* `Moment.lies_iff` : the clock counts.
-/
import Mathlib
import Reckon.Calendar.Moment
import Reckon.Proofs.DayNumber

namespace Reckon.Calendar

/-! ### Times of day -/

namespace TimeOfDay

theorem of?_eq_some_iff {h m s : ℕ} {t : TimeOfDay} :
    of? h m s = some t ↔ t.hour = h ∧ t.minute = m ∧ t.second = s := by
  rw [of?]
  split
  · next hmem =>
    constructor
    · intro ht
      obtain rfl := Option.some.inj ht
      exact ⟨rfl, rfl, rfl⟩
    · rintro ⟨rfl, rfl, rfl⟩
      rfl
  · next hmem =>
    constructor
    · intro ht
      cases ht
    · rintro ⟨rfl, rfl, rfl⟩
      exact absurd ⟨t.hour_lt, t.minute_lt, t.second_lt⟩ hmem

theorem of?_cases (h m s : ℕ) :
    (∃ t, of? h m s = some t ∧ t.seconds = 3600 * h + 60 * m + s) ∨
      of? h m s = none ∧ ¬ (h < 24 ∧ m < 60 ∧ s < 60) := by
  rw [of?]
  split
  · next hmem => exact Or.inl ⟨_, rfl, rfl⟩
  · next hmem => exact Or.inr ⟨rfl, hmem⟩

theorem seconds_lt (t : TimeOfDay) : t.seconds < 86400 := by
  have hhour := t.hour_lt
  have hminute := t.minute_lt
  have hsecond := t.second_lt
  rw [seconds]
  omega

theorem seconds_ofSeconds {n : ℕ} (h : n < 86400) : (ofSeconds n).seconds = n := by
  simp only [seconds, ofSeconds]
  omega

theorem seconds_injective {t t' : TimeOfDay} (h : t.seconds = t'.seconds) : t = t' := by
  rw [← ofSeconds_seconds t, h, ofSeconds_seconds]

/-- The time a second later: the next second, or else the next minute, or else the next hour. -/
def tick? (t : TimeOfDay) : Option TimeOfDay :=
  of? t.hour t.minute (t.second + 1) <|> of? t.hour (t.minute + 1) 0 <|> of? (t.hour + 1) 0 0

/-- The clock goes on for a second, or stops at the last second of the day. -/
theorem tick?_cases (t : TimeOfDay) :
    (∃ u, t.tick? = some u ∧ u.seconds = t.seconds + 1) ∨
      t.tick? = none ∧ t.seconds + 1 = 86400 := by
  have hsecond := t.second_lt
  have hminute := t.minute_lt
  have hhour := t.hour_lt
  rw [tick?, seconds]
  rcases of?_cases t.hour t.minute (t.second + 1) with ⟨u, hu, hnumber⟩ | ⟨hu, hs⟩
  · exact Or.inl ⟨u, by rw [hu]; rfl, by omega⟩
  · rw [hu]
    rcases of?_cases t.hour (t.minute + 1) 0 with ⟨u, hu, hnumber⟩ | ⟨hu, hm⟩
    · exact Or.inl ⟨u, by rw [hu]; rfl, by omega⟩
    · rw [hu]
      rcases of?_cases (t.hour + 1) 0 0 with ⟨u, hu, hnumber⟩ | ⟨hu, hh⟩
      · exact Or.inl ⟨u, hu, by omega⟩
      · exact Or.inr ⟨hu, by omega⟩

end TimeOfDay

namespace Moment

/-! ### The number of a moment -/

/-- The seconds from the first moment of day zero. -/
def number (t : Moment) : ℤ :=
  86400 * t.date.dayNumber + t.time.seconds

theorem number_injective {t t' : Moment} (h : t.number = t'.number) : t = t' := by
  have hlt := t.time.seconds_lt
  have hlt' := t'.time.seconds_lt
  rw [number, number] at h
  obtain ⟨date, time⟩ := t
  obtain ⟨date', time'⟩ := t'
  dsimp only at h hlt hlt'
  rw [Date.dayNumber_injective (show date.dayNumber = date'.dayNumber by omega),
    TimeOfDay.seconds_injective (show time.seconds = time'.seconds by omega)]

theorem addSeconds?_eq_some_iff {t t' : Moment} {n : ℤ} :
    t.addSeconds? n = some t' ↔ t'.number = t.number + n := by
  have hnonneg := Int.emod_nonneg (t.time.seconds + n) (b := 86400) (by decide)
  have hlt := Int.emod_lt_of_pos (t.time.seconds + n) (b := 86400) (by decide)
  have hsplit := Int.mul_ediv_add_emod (t.time.seconds + n) 86400
  have hrest := TimeOfDay.seconds_ofSeconds
    (show ((t.time.seconds + n) % 86400).toNat < 86400 by omega)
  rw [addSeconds?, Option.map_eq_some_iff]
  constructor
  · rintro ⟨d, hd, rfl⟩
    rw [Date.addDays?_eq_some_iff] at hd
    rw [number, number, hd, hrest]
    omega
  · intro h
    have hlt' := t'.time.seconds_lt
    rw [number, number] at h
    refine ⟨t'.date, Date.addDays?_eq_some_iff.mpr (by omega), ?_⟩
    have htime : TimeOfDay.ofSeconds ((t.time.seconds + n) % 86400).toNat = t'.time := by
      refine TimeOfDay.seconds_injective ?_
      rw [hrest]
      omega
    rw [htime]

/-- Between two moments no second is left out. -/
theorem exists_number (t t' : Moment) {n : ℤ} (h : t.number ≤ n) (h' : n ≤ t'.number) :
    ∃ u : Moment, u.number = n := by
  have hlt := t.time.seconds_lt
  have hlt' := t'.time.seconds_lt
  rw [number] at h h'
  obtain ⟨d, hd⟩ := Date.exists_dayNumber (x := t.date) (y := t'.date) (n := n / 86400)
    (by omega) (by omega)
  have hrest := TimeOfDay.seconds_ofSeconds (show (n % 86400).toNat < 86400 by omega)
  refine ⟨⟨d, TimeOfDay.ofSeconds (n % 86400).toNat⟩, ?_⟩
  rw [number, hd, hrest]
  omega

/-! ### The clock -/

/-- The moment a second later: a later time of the same day, or else the first moment of the day
after. -/
def tick? (t : Moment) : Option Moment :=
  match t.time.tick? with
  | some time => some ⟨t.date, time⟩
  | none => t.date.following?.map fun d => ⟨d, TimeOfDay.ofSeconds 0⟩

/-- The moment after so many seconds, one after another. -/
def ticks? : ℕ → Moment → Option Moment
  | 0, t => some t
  | n + 1, t => (ticks? n t).bind tick?

theorem tick?_eq_some_iff {t t' : Moment} : t.tick? = some t' ↔ t'.number = t.number + 1 := by
  rw [tick?]
  rcases t.time.tick?_cases with ⟨time, htime, hseconds⟩ | ⟨htime, hlast⟩
  · have hnumber : (⟨t.date, time⟩ : Moment).number = t.number + 1 := by
      rw [number, number, hseconds]
      push_cast
      ring
    rw [htime]
    constructor
    · intro h
      rw [← Option.some.inj h, hnumber]
    · intro h
      exact congrArg some (number_injective (hnumber.trans h.symm))
  · have hzero : (TimeOfDay.ofSeconds 0).seconds = 0 := rfl
    rw [htime, ← Date.next?_eq_following?, Option.map_eq_some_iff]
    constructor
    · rintro ⟨d, hd, rfl⟩
      rw [number, number, Date.addDays?_eq_some_iff.mp hd, hzero]
      omega
    · intro h
      have hlt' := t'.time.seconds_lt
      rw [number, number] at h
      have hmidnight : (TimeOfDay.ofSeconds 0).seconds = t'.time.seconds := by
        rw [hzero]
        omega
      refine ⟨t'.date, Date.addDays?_eq_some_iff.mpr (by omega), ?_⟩
      rw [TimeOfDay.seconds_injective hmidnight]

theorem ticks?_eq_some_iff {n : ℕ} {t t' : Moment} :
    ticks? n t = some t' ↔ t'.number = t.number + n := by
  induction n generalizing t' with
  | zero =>
    rw [ticks?, Nat.cast_zero, add_zero]
    exact ⟨fun h => by rw [Option.some.inj h], fun h => by rw [number_injective h]⟩
  | succ n ih =>
    rw [ticks?, Option.bind_eq_some_iff]
    constructor
    · rintro ⟨u, hu, htick⟩
      rw [tick?_eq_some_iff.mp htick, ih.mp hu]
      push_cast
      ring
    · intro h
      push_cast at h
      -- the clock passes through the second before
      obtain ⟨u, hu⟩ := exists_number t t' (n := t.number + n) (by omega) (by omega)
      exact ⟨u, ih.mpr hu, tick?_eq_some_iff.mpr (by rw [hu]; omega)⟩

/-- By the clock, `t'` comes `n` seconds after `t`, or `-n` seconds before it. -/
def Lies : ℤ → Moment → Moment → Prop
  | .ofNat n, t, t' => ticks? n t = some t'
  | .negSucc n, t, t' => ticks? (n + 1) t' = some t

theorem lies_iff {n : ℤ} {t t' : Moment} : Lies n t t' ↔ t'.number = t.number + n := by
  cases n with
  | ofNat n => exact ticks?_eq_some_iff
  | negSucc n =>
    rw [Lies, ticks?_eq_some_iff, Int.negSucc_eq]
    push_cast
    omega

theorem Lies.add {m n : ℤ} {t t' t'' : Moment} (h : Lies m t t') (h' : Lies n t' t'') :
    Lies (m + n) t t'' := by
  rw [lies_iff] at *
  omega

theorem addSeconds?_eq_some_iff_lies {t t' : Moment} {n : ℤ} :
    t.addSeconds? n = some t' ↔ Lies n t t' := by
  rw [addSeconds?_eq_some_iff, lies_iff]

end Moment

end Reckon.Calendar
