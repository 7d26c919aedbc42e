/-
Runs at a named instant.

An instant is written in many ways: at any offset from UTC, with any mark and any fraction. Two
timestamps are of one instant when their civil times, each taken back by its offset, are the same
civil time in UTC. The time that a run looks at is the one the clock shows in the time zone then,
and nothing else of the timestamp is looked at, so timestamps of one instant can be exchanged.

* `Stamp.SameInstant` : the instants of two timestamps are one.
* `exists_civil` : the civil time of a timestamp in a zone.
* `readNow_of_lies`, `readNow_congr` : the time that a run looks at.
* `exists_readArguments_now` : what the arguments ask for around the instant.
* `exists_now` : the time that a query is answered at, in any zone.
* `run_sameInstant` : runs at one instant end the same.
-/
import Mathlib
import Reckon.Proofs.CommandLine
import Reckon.Proofs.TimestampText

namespace Reckon.Command

open Calendar

/-! ### Instants -/

/-- The timestamp as an argument. -/
def Stamp.text (x : Stamp) : String :=
  String.ofList x.chars

/-- The instants of the timestamps are one: the civil times in UTC are the same. -/
def Stamp.SameInstant (x x' : Stamp) : Prop :=
  ∃ utc, Moment.Lies (-x.offset.seconds) x.civil utc ∧
    Moment.Lies (-x'.offset.seconds) x'.civil utc

/-- The texts that are accepted are those of timestamps. -/
theorem isSome_parse?_iff {text : String} :
    (Timestamp.parse? text.toList).isSome = true ↔ ∃ x : Stamp, x.text = text := by
  rw [Option.isSome_iff_exists]
  constructor
  · rintro ⟨t, ht⟩
    obtain ⟨x, hx, -⟩ := Timestamp.parse?_eq_some_iff.mp ht
    exact ⟨x, by rw [Stamp.text, hx, String.ofList_toList]⟩
  · rintro ⟨x, rfl⟩
    exact ⟨_, by rw [Stamp.text, String.toList_ofList, Timestamp.parse?_chars]⟩

theorem formOf_text (x : Stamp) : formOf x.text = .word := by
  have hdigit : ∀ c ∈ x.text.toList.head?, c.isDigit = true := by
    intro c hc
    have hlength := Number.length_paddedDigits (show 0 < 4 by decide)
      (show x.civil.date.year.toNat < 10 ^ 4 by have hyear := x.year_mem; omega)
    obtain ⟨d, ds, hyear⟩ := List.exists_cons_of_length_pos (hlength ▸ show 0 < 4 by decide)
    rw [Stamp.text, String.toList_ofList, Stamp.chars, hyear] at hc
    obtain rfl := Option.some.inj hc
    exact Number.isDigit_of_mem_paddedDigits (hyear ▸ List.mem_cons_self)
  refine formOf_of_head fun hdash => ?_
  exact absurd (hdigit '-' hdash) (by decide)

/-! ### Civil times in other zones -/

theorem OffsetText.seconds_mem (x : OffsetText) : -86400 < x.seconds ∧ x.seconds < 86400 := by
  cases x with
  | utc c hc =>
    rw [seconds]
    decide
  | apart sign hour minute hsign hhour hminute =>
    rw [seconds]
    split <;> omega

/-- The years of timestamps are far from the ends of the calendar. -/
theorem exists_lies (x : Stamp) {n : ℤ} (h : -172800 < n ∧ n < 172800) :
    ∃ t, Moment.Lies n x.civil t := by
  have hyear := x.year_mem
  have hmonth := x.civil.date.month_mem
  have hday := x.civil.date.day_mem
  have hlength := monthLength_le x.civil.date.year x.civil.date.month
  have hlt := x.civil.time.seconds_lt
  -- a whole year is left on both sides, and no more than two days are needed
  let early : Date := ⟨-1, 1, 1, by decide, by decide⟩
  let first : Date := ⟨0, 1, 1, by decide, by decide⟩
  let last : Date := ⟨9999, 12, 31, by decide, by decide⟩
  let late : Date := ⟨10001, 1, 1, by decide, by decide⟩
  have hearly : early.dayNumber + 365 = first.dayNumber := by decide
  have hlate : last.dayNumber + 367 = late.dayNumber := by decide
  have hfirst : first.dayNumber ≤ x.civil.date.dayNumber := by
    rw [← Date.le_iff_dayNumber_le, Date.le_iff]
    dsimp only [first]
    omega
  have hlast : x.civil.date.dayNumber ≤ last.dayNumber := by
    rw [← Date.le_iff_dayNumber_le, Date.le_iff]
    dsimp only [last]
    omega
  have hmidnight (d : Date) : (⟨d, TimeOfDay.ofSeconds 0⟩ : Moment).number =
      86400 * d.dayNumber + 0 := rfl
  have hnumber : x.civil.number = 86400 * x.civil.date.dayNumber + x.civil.time.seconds := rfl
  obtain ⟨t, ht⟩ := Moment.exists_number ⟨early, TimeOfDay.ofSeconds 0⟩
    ⟨late, TimeOfDay.ofSeconds 0⟩ (n := x.civil.number + n)
    (by rw [hmidnight, hnumber]; omega) (by rw [hmidnight, hnumber]; omega)
  exact ⟨t, Moment.lies_iff.mpr ht⟩

/-- At a timestamp it is some time in UTC, and some time in any zone. -/
theorem exists_civil (x : Stamp) (zone : Zone) : ∃ utc now,
    Moment.Lies (-x.offset.seconds) x.civil utc ∧ Moment.Lies (zone.offset utc) utc now := by
  have hoffset := x.offset.seconds_mem
  obtain ⟨utc, hutc⟩ := exists_lies x (n := -x.offset.seconds) (by omega)
  have hzone := zone.offset_mem utc
  obtain ⟨now, hnow⟩ := exists_lies x (n := -x.offset.seconds + zone.offset utc) (by omega)
  refine ⟨utc, now, hutc, ?_⟩
  rw [Moment.lies_iff] at *
  omega

theorem readInstant_of_lies (w : World) {x : Stamp} {utc : Moment}
    (h : Moment.Lies (-x.offset.seconds) x.civil utc) :
    readInstant w (some x.text) = .ok utc := by
  have hutc : (⟨x.civil, x.offset.seconds⟩ : Timestamp).utc? = some utc :=
    Moment.addSeconds?_eq_some_iff_lies.mpr h
  rw [readInstant, Stamp.text, String.toList_ofList, Timestamp.parse?_chars, Option.bind_some,
    hutc]

theorem readNow_of_lies (w : World) {x : Stamp} {zone : Zone} {utc now : Moment}
    (hutc : Moment.Lies (-x.offset.seconds) x.civil utc)
    (hnow : Moment.Lies (zone.offset utc) utc now) :
    readNow w zone (some x.text) = .ok now := by
  have hcivil : zone.civil? utc = some now := Moment.addSeconds?_eq_some_iff_lies.mpr hnow
  refine bind_eq_ok_iff.mpr ⟨utc, readInstant_of_lies w hutc, ?_⟩
  rw [hcivil]

/-- A run that is told the time has a civil time in any zone: only a clock may leave the
calendar. -/
theorem exists_readNow (w : World) (zone : Zone) {text : String}
    (h : (Timestamp.parse? text.toList).isSome = true) :
    ∃ now, readNow w zone (some text) = .ok now := by
  obtain ⟨x, rfl⟩ := isSome_parse?_iff.mp h
  obtain ⟨utc, now, hutc, hnow⟩ := exists_civil x zone
  exact ⟨now, readNow_of_lies w hutc hnow⟩

/-- Which of the timestamps of one instant is read makes no difference in any zone. -/
theorem readNow_congr (w : World) (zone : Zone) {x x' : Stamp} (h : x.SameInstant x') :
    readNow w zone (some x.text) = readNow w zone (some x'.text) := by
  obtain ⟨utc, hx, hx'⟩ := h
  rw [readNow, readNow, readInstant_of_lies w hx, readInstant_of_lies w hx']

/-! ### Arguments around an instant -/

/-- The arguments with this timestamp. -/
def Arguments.withNow (text : String) (a : Arguments) : Arguments :=
  a.withValue text .now

theorem setFlags_withNow (text : String) (fs : List Flag) (a : Arguments) :
    setFlags (a.withNow text) fs = (setFlags a fs).map (Sum.map (.withNow text) id) := by
  induction fs generalizing a with
  | nil => rfl
  | cons f fs ih =>
    cases f with
    | help => rfl
    | version => rfl
    | json =>
      have ih := ih { a.withGiven Flag.json.name with json := true }
      rw [setFlags, setFlags]
      show (if a.json then _ else _) = _
      split
      · rfl
      · exact ih
    | verbose =>
      have ih := ih { a.withGiven Flag.verbose.name with verbose := true }
      rw [setFlags, setFlags]
      show (if a.verbose then _ else _) = _
      split
      · rfl
      · exact ih

theorem setValue_withNow (text value : String) (s : Setting) (a : Arguments) :
    setValue (a.withNow text) value s =
      if s = .now then .error ⟨.repeatedSetting .now, a.given⟩
      else (setValue a value s).map (.withNow text) := by
  by_cases hnow : s = .now
  · rw [if_pos hnow, hnow]
    rfl
  · have hvalue : (a.withNow text).value? s = a.value? s := by cases s <;> trivial
    rw [if_neg hnow, setValue, setValue, hvalue]
    split
    · rfl
    · split
      · rfl
      · cases s <;> trivial

theorem Request.map_eq_self {r : Request} (h : ∀ a, r ≠ .run a) (f : Arguments → Arguments) :
    r.map f = r := by
  cases r with
  | help => rfl
  | version => rfl
  | run a => exact absurd rfl (h a)

section Behind

-- how the arguments behind are read, with either of the timestamps
variable {text text' : String} {read : Arguments → Except Misuse Request}
  (hread : ∀ a : Arguments,
    read (a.withNow text) = (read (a.withNow text')).map (.map (.withNow text)))

include hread

/-- Flags are read alike with any timestamp. -/
theorem bind_setFlags_withNow (fs : List Flag) (a : Arguments) :
    (setFlags (a.withNow text) fs).bind (Sum.elim read .ok) =
      ((setFlags (a.withNow text') fs).bind (Sum.elim read .ok)).map (.map (.withNow text)) := by
  rw [setFlags_withNow, setFlags_withNow]
  cases hflags : setFlags a fs with
  | error e => rfl
  | ok x =>
    cases x with
    | inl b => exact hread b
    | inr r => exact congrArg Except.ok (Request.map_eq_self (keepsWords_setFlags hflags) _).symm

/-- The values of other settings are read alike, and a second timestamp is wrong use. -/
theorem bind_setValue_withNow (value : String) (s : Setting) (a : Arguments) :
    (setValue (a.withNow text) value s).bind read =
      ((setValue (a.withNow text') value s).bind read).map (.map (.withNow text)) := by
  rw [setValue_withNow, setValue_withNow]
  by_cases hnow : s = .now
  · rw [if_pos hnow, if_pos hnow]
    rfl
  · rw [if_neg hnow, if_neg hnow]
    cases setValue a value s with
    | error e => rfl
    | ok b => exact hread b

end Behind

/-- What is read behind a timestamp does not depend on it. -/
theorem readArguments_withNow (text text' : String) : ∀ (args : List String) (a : Arguments),
    readArguments (a.withNow text) args =
      (readArguments (a.withNow text') args).map (.map (.withNow text))
  | [], a => rfl
  | arg :: rest, a => by
    cases hform : formOf arg with
    | escape =>
      rw [readArguments, readArguments, hform]
      rfl
    | word =>
      rw [readArguments, readArguments, hform]
      rfl
    | letters fs =>
      rw [readArguments_letters _ _ hform, readArguments_letters _ _ hform]
      exact bind_setFlags_withNow (readArguments_withNow text text' rest) fs a
    | flag f attached =>
      cases attached with
      | some value =>
        rw [readArguments, readArguments, hform]
        rfl
      | none =>
        rw [readArguments_flag _ _ hform, readArguments_flag _ _ hform]
        exact bind_setFlags_withNow (readArguments_withNow text text' rest) [f] a
    | setting s attached =>
      cases attached with
      | some value =>
        rw [readArguments_attached _ _ hform, readArguments_attached _ _ hform]
        exact bind_setValue_withNow (readArguments_withNow text text' rest) value s a
      | none =>
        cases rest with
        | nil =>
          rw [readArguments, readArguments, hform]
          rfl
        | cons value rest =>
          rw [readArguments_setting _ _ _ hform, readArguments_setting _ _ _ hform]
          split
          · rfl
          · exact bind_setValue_withNow (readArguments_withNow text text' rest) value s a

/-- A timestamp begins with a digit, so it is not taken for an option. -/
theorem read_now (x : Stamp) (isAttached : Bool) (a : Arguments) :
    (Given.setting .now x.text isAttached).read a =
      if a.now.isSome then .error ⟨.repeatedSetting .now, a.given⟩
      else .ok (.inl ((a.withGiven Setting.now.name).withNow x.text)) := by
  have hvalue : startsOption x.text = false := by rw [startsOption, formOf_text]; rfl
  rw [Given.read, hvalue, Bool.not_false, Bool.or_true, if_pos rfl, setValue]
  show Except.map _ (if a.now.isSome then _ else _) = _
  split <;> rfl

/-- A timestamp is read behind the options in front of it, and before the arguments behind. -/
theorem readArguments_now (pre : List Given) (post : List String) (x : Stamp)
    (isAttached : Bool) :
    readArguments {} (argsOf (pre ++ [.setting .now x.text isAttached]) ++ post) =
      (readGiven {} pre).bind (Sum.elim (fun a =>
        if a.now.isSome then .error ⟨.repeatedSetting .now, a.given⟩
        else readArguments ((a.withGiven Setting.now.name).withNow x.text) post) .ok) := by
  rw [argsOf, List.flatMap_append, List.flatMap_singleton, List.append_assoc, ← argsOf,
    readArguments_append]
  congr 2
  funext a
  rw [readArguments_given, read_now]
  split <;> rfl

/-- What is asked for around a timestamp, apart from it. -/
theorem exists_readArguments_now (pre : List Given) (post : List String) :
    ∃ r : Except Misuse Request, ∀ (x : Stamp) (isAttached : Bool),
      readArguments {} (argsOf (pre ++ [.setting .now x.text isAttached]) ++ post) =
        r.map (.map (.withNow x.text)) := by
  -- three things can have come of the options in front: misuse, a request at once, or arguments
  cases hpre : readGiven {} pre with
  | error e => exact ⟨.error e, fun x isAttached => by rw [readArguments_now, hpre]; rfl⟩
  | ok y =>
    cases y with
    | inr r =>
      refine ⟨.ok r, fun x isAttached => ?_⟩
      rw [readArguments_now, hpre]
      exact congrArg Except.ok (Request.map_eq_self (keepsWords_readGiven hpre) _).symm
    | inl a =>
      refine ⟨if a.now.isSome then .error ⟨.repeatedSetting .now, a.given⟩
        else readArguments ((a.withGiven Setting.now.name).withNow "") post,
        fun x isAttached => ?_⟩
      rw [readArguments_now, hpre]
      show (if a.now.isSome then .error _
        else readArguments ((a.withGiven Setting.now.name).withNow x.text) post) = _
      split
      · rfl
      · exact readArguments_withNow x.text "" post _

/-- The timestamp that is given is the one in the request. -/
theorem now_of_readArguments {pre : List Given} {post : List String} {x : Stamp}
    {isAttached : Bool} {a : Arguments}
    (h : readArguments {} (argsOf (pre ++ [.setting .now x.text isAttached]) ++ post) =
      .ok (.run a)) : a.now = some x.text := by
  obtain ⟨r, hr⟩ := exists_readArguments_now pre post
  rw [hr x isAttached] at h
  obtain ⟨q, -, hq⟩ := map_eq_ok_iff.mp h
  cases q with
  | help => cases hq
  | version => cases hq
  | run b =>
    cases hq
    rfl

/-! ### Runs -/

section Around

variable (w : World) {pre : List Given} {post : List String}

/-- Timestamps of one instant are exchanged with no effect on the outcome. -/
theorem run_congr_of_sameInstant {x x' : Stamp} (isAttached isAttached' : Bool)
    (h : x.SameInstant x') :
    run w (argsOf (pre ++ [.setting .now x.text isAttached]) ++ post) =
      run w (argsOf (pre ++ [.setting .now x'.text isAttached']) ++ post) := by
  obtain ⟨r, hr⟩ := exists_readArguments_now pre post
  refine run_congr rfl (hr x isAttached) (hr x' isAttached') fun a _ => ?_
  have hnow (zone : Zone) := readNow_congr w zone h
  rw [answer_eq, answer_eq]
  simp only [Arguments.withNow, Arguments.withValue, hnow]

variable {w}

/-- A query is answered at the time that the zone has at the instant of the timestamp, whatever the
zone is. -/
theorem exists_now {x : Stamp} {isAttached : Bool} {a : Arguments} {options : Options}
    {zone : Zone} {query : List Char}
    (hargs : readArguments {} (argsOf (pre ++ [.setting .now x.text isAttached]) ++ post) =
      .ok (.run a))
    (hoptions : readOptions w a.config = .ok options) (hzone : readZone w a.zone = .ok zone)
    (hquery : readQuery w a.words = .ok query) :
    ∃ utc now, Moment.Lies (-x.offset.seconds) x.civil utc ∧
      Moment.Lies (zone.offset utc) utc now ∧
      run w (argsOf (pre ++ [.setting .now x.text isAttached]) ++ post) =
        .ofAnswer a.json query (interpret options now query) := by
  obtain ⟨utc, now, hutc, hnow⟩ := exists_civil x zone
  refine ⟨utc, now, hutc, hnow, run_eq_ofAnswer hargs hoptions hzone ?_ hquery⟩
  rw [now_of_readArguments hargs]
  exact readNow_of_lies w hutc hnow

end Around

/-- Only the instant of a timestamp matters, among arguments and in a world of any kind. The texts
that are accepted are those of timestamps. Two of one instant are exchanged with no effect on the
outcome, and in a zone that is always as far ahead of UTC, the time that the query is answered at is
as many seconds from the civil time of the timestamp as the zone is ahead of its offset, by the
clock and the calendar. -/
theorem run_sameInstant (w : World) (pre : List Given) (post : List String) :
    (∀ text : String, (Timestamp.parse? text.toList).isSome = true ↔
      ∃ x : Stamp, x.text = text) ∧
    (∀ (x x' : Stamp) (isAttached isAttached' : Bool), x.SameInstant x' →
      run w (argsOf (pre ++ [.setting .now x.text isAttached]) ++ post) =
        run w (argsOf (pre ++ [.setting .now x'.text isAttached']) ++ post)) ∧
    ∀ (x : Stamp) (isAttached : Bool) a options zone offset query,
      readArguments {} (argsOf (pre ++ [.setting .now x.text isAttached]) ++ post) =
        .ok (.run a) →
      readOptions w a.config = .ok options → readZone w a.zone = .ok zone →
      (∀ utc, zone.offset utc = offset) → readQuery w a.words = .ok query →
      ∃ now, Moment.Lies (offset - x.offset.seconds) x.civil now ∧
        run w (argsOf (pre ++ [.setting .now x.text isAttached]) ++ post) =
          .ofAnswer a.json query (interpret options now query) := by
  refine ⟨fun text => isSome_parse?_iff, fun x x' isAttached isAttached' =>
    run_congr_of_sameInstant w isAttached isAttached', ?_⟩
  intro x isAttached a options zone offset query hargs hoptions hzone hfixed hquery
  obtain ⟨utc, now, hutc, hnow, hrun⟩ := exists_now hargs hoptions hzone hquery
  rw [hfixed] at hnow
  refine ⟨now, ?_, hrun⟩
  rw [Int.sub_eq_add_neg, Int.add_comm]
  exact hutc.add hnow

/-- The last quarter of an hour of a leap day, the same instant where March has begun, and the time
that is looked at in Tokyo. -/
theorem run_sameInstant_leapDay :
    ∃ x x' : Stamp, ∃ now : Moment, x.SameInstant x' ∧ Moment.Lies 32400 x.civil now ∧
      run stillWorld ["--now", "2024-02-29T23:45:00Z", "--tz", "Asia/Tokyo", "today"] =
        run stillWorld
          ["--now=2024-03-01t05:15:00.25+05:30", "--tz", "Asia/Tokyo", "today"] ∧
      run stillWorld ["--now", "2024-02-29T23:45:00Z", "--tz", "Asia/Tokyo", "today"] =
        .ofAnswer false "today".toList (interpret {} now "today".toList) := by
  let x : Stamp := ⟨⟨⟨2024, 2, 29, by decide, by decide⟩, TimeOfDay.ofSeconds 85500⟩, by decide,
    'T', by decide, 0, by decide, [], by decide, .utc 'Z' (by decide)⟩
  let x' : Stamp := ⟨⟨⟨2024, 3, 1, by decide, by decide⟩, TimeOfDay.ofSeconds 18900⟩, by decide,
    't', by decide, 0, by decide, ['2', '5'], by decide,
    .apart '+' 5 30 (by decide) (by decide) (by decide)⟩
  have hsame : x.SameInstant x' :=
    ⟨x.civil, Moment.lies_iff.mpr (by decide), Moment.lies_iff.mpr (by decide)⟩
  have htext : x.text = "2024-02-29T23:45:00Z" := by decide
  have htext' : x'.text = "2024-03-01t05:15:00.25+05:30" := by decide
  obtain ⟨-, hrun, hlook⟩ := run_sameInstant stillWorld [] ["--tz", "Asia/Tokyo", "today"]
  have hpair := hrun x x' false true hsame
  have hlook := hlook x false
    { words := ["today"], zone := some "Asia/Tokyo", now := some x.text, given := ["now", "tz"] }
    {} (.fixed 32400 (by decide)) 32400 "today".toList
  rw [htext] at hpair hlook
  rw [htext'] at hpair
  obtain ⟨now, hnow, hanswer⟩ := hlook (by decide) rfl rfl (fun _ => rfl) (by decide)
  exact ⟨x, x', now, hsame, hnow, hpair, hanswer⟩

end Reckon.Command
