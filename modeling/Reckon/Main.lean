/-
The command line.

Only what a run needs is read: a configuration if one is named, the time zone, standard input if no
words are given, and the system clock. The rest is `Command.run`. Time zones are those of the
system's database. The texts in this module belong to this outer layer alone.
-/
import Reckon.Command.Run
import Std.Time.Zoned.Database

namespace Reckon.Command

open Calendar

/-- What is read, or why it cannot be read. -/
def tried {α : Type} (read : IO α) : IO (Except String α) := do
  try
    return .ok (← read)
  catch e =>
    return .error (toString e)

/-- The system's instant of a civil time in UTC. -/
def instantOf (utc : Moment) : Std.Time.Timestamp :=
  let days := utc.date.dayNumber - Moment.epoch.date.dayNumber
  .ofSecondsSinceUnixEpoch ⟨86400 * days + utc.time.seconds⟩

/-- The time zone with these rules. -/
def zoneOf (rules : Std.Time.TimeZone.ZoneRules) : Zone where
  offset utc := max (-86399) (min 86399 (rules.timezoneAt (instantOf utc)).offset.second.val)
  offset_mem utc := by omega

/-- The civil time in UTC by the system clock. -/
def readClock : IO Moment := do
  let now ← Std.Time.Timestamp.now
  return (Moment.epoch.addSeconds? now.toSecondsSinceUnixEpoch.val).getD Moment.epoch

/-- What an argument that is used wrongly is told. -/
def misuseText (e : Misuse) : String :=
  match e.cause with
  | .repeatedFlag f => "error: --" ++ f.name ++ " is given twice"
  | .repeatedSetting s => "error: --" ++ s.name ++ " is given twice"
  | .unwantedValue f value => "error: --" ++ f.name ++ " takes no value, but is given " ++ value
  | .missingValue s => "error: --" ++ s.name ++ " needs a value"

/-- The texts of this layer. -/
def texts : Texts where
  help := "Interpret a calculator, unit, temperature or date query.\n"
  misuse := misuseText
  settings _ := "not the options of an interpreter"
  timestamp _ := "not a timestamp of RFC 3339"
  outside := "the civil time is not in the calendar"

/-- What a run with these arguments needs from outside. -/
def readWorld (args : List String) : IO World := do
  let unread : Except String String := .error "not read"
  let text ← (needsFile? args).elim (pure unread) fun path => tried (IO.FS.readFile path)
  let rules ← tried (Std.Time.Database.defaultGetZoneRules ((needsZone? args).getD defaultZone))
  let input ← if needsInput args then tried (do (← IO.getStdin).readToEnd) else pure unread
  return ⟨fun _ => text, fun _ => rules.map zoneOf, ← readClock, input, texts⟩

end Reckon.Command

/-- Runs the program. The result is its exit code. -/
def main (args : List String) : IO UInt32 := do
  let outcome := Reckon.Command.run (← Reckon.Command.readWorld args) args
  IO.print outcome.output
  match outcome.message with
  | none => pure ()
  | some line => IO.eprintln line
  return UInt32.ofNat outcome.exitCode
