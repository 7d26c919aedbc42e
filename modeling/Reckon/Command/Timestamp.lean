/-
Timestamps of RFC 3339, and time zones.

A timestamp has a date, a time and an offset from UTC. A `T` or a space stands between date and
time, the offset is `Z` or a sign with hours and minutes, letters may be lower case, and a fraction
of seconds is read over. A leap second counts as the second before it.

A time zone says how far its civil time is ahead of UTC, and may say so differently at every instant.
Which zones there are is not told here: a run is given them.

* `Timestamp.parse?` : the timestamp that a text stands for.
* `Timestamp.utc?` : the civil time in UTC at a timestamp.
* `Zone.civil?` : the civil time of a zone.
-/
import Reckon.Calendar.Moment
import Reckon.Number.Numeral

namespace Reckon.Command

open Calendar

/-- A civil time, and how many seconds it is ahead of UTC. -/
structure Timestamp where
  moment : Moment
  offset : Int
  deriving Repr, DecidableEq

namespace Timestamp

/-- Exactly `n` digits, and the rest. -/
def readDigits? (n : Nat) (s : List Char) : Option (Nat × List Char) :=
  let ds := s.take n
  if ds.length = n ∧ ds.all Char.isDigit then some (Number.digitsValue ds, s.drop n) else none

/-- The text behind one of these characters. -/
def readMark? (cs : List Char) : List Char → Option (List Char)
  | c :: s => if cs.contains c then some s else none
  | [] => none

/-- The text behind a fraction of seconds, if there is one. -/
def skipFraction? : List Char → Option (List Char)
  | '.' :: s =>
    match Number.spanDigits s with
    | ([], _) => none
    | (_, r) => some r
  | s => some s

/-- The seconds of an offset behind its sign: hours below 24 and minutes below 60. Nothing
follows. -/
def readOffsetSize? (s : List Char) : Option Int := do
  let (h, s) ← readDigits? 2 s
  let s ← readMark? [':'] s
  let (m, s) ← readDigits? 2 s
  if h < 24 ∧ m < 60 ∧ s.isEmpty then some (3600 * h + 60 * m : Nat) else none

/-- The seconds of an offset. The minus sign may be a hyphen or the sign of its own. -/
def readOffset? : List Char → Option Int
  | ['Z'] => some 0
  | ['z'] => some 0
  | '+' :: s => readOffsetSize? s
  | '-' :: s => (readOffsetSize? s).map fun n => -n
  | '−' :: s => (readOffsetSize? s).map fun n => -n
  | _ => none

/-- The timestamp that a text stands for. -/
def parse? (s : List Char) : Option Timestamp := do
  let (y, s) ← readDigits? 4 s
  let s ← readMark? ['-'] s
  let (m, s) ← readDigits? 2 s
  let s ← readMark? ['-'] s
  let (d, s) ← readDigits? 2 s
  let s ← readMark? ['T', 't', ' '] s
  let (hour, s) ← readDigits? 2 s
  let s ← readMark? [':'] s
  let (minute, s) ← readDigits? 2 s
  let s ← readMark? [':'] s
  let (second, s) ← readDigits? 2 s
  let s ← skipFraction? s
  let offset ← readOffset? s
  let date ← Date.of? y m d
  let time ← TimeOfDay.of? hour minute (if second = 60 then 59 else second)
  return ⟨⟨date, time⟩, offset⟩

/-- The civil time in UTC. -/
def utc? (t : Timestamp) : Option Moment :=
  t.moment.addSeconds? (-t.offset)

end Timestamp

/-- A time zone: how far its time is ahead of UTC, which is less than a day. -/
structure Zone where
  /-- The seconds ahead of UTC, by the civil time in UTC. -/
  offset : Moment → Int
  offset_mem : ∀ utc, -86400 < offset utc ∧ offset utc < 86400

namespace Zone

/-- A zone whose time is always as far ahead of UTC. -/
def fixed (seconds : Int) (h : -86400 < seconds ∧ seconds < 86400) : Zone :=
  ⟨fun _ => seconds, fun _ => h⟩

/-- The civil time of a zone at a civil time in UTC. -/
def civil? (z : Zone) (utc : Moment) : Option Moment :=
  utc.addSeconds? (z.offset utc)

end Zone

end Reckon.Command
