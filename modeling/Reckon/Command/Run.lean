/-
What a run of the program does.

The words of the query are joined by spaces; without words the query is read from standard input.
The answer is written as two lines or as JSON. Checks are made in the order configuration, time
zone, now, query. What lies outside of the program is given to a run: files and standard input, the
clock, the time zones, and the texts of the libraries that read arguments, settings and timestamps.

* `World`, `Texts` : what a run takes from outside.
* `Failure` : why a run cannot look at its query.
* `Outcome` : what a run ends with; `Outcome.exitCode`, `Outcome.output` and `Outcome.message`.
* `run` : the outcome for arguments in a world.
* `needsFile?`, `needsZone?`, `needsInput` : what of the outside the outcome depends on.
-/
import Reckon.Command.Arguments
import Reckon.Command.Settings
import Reckon.Command.Timestamp

namespace Reckon.Command

open Calendar

/-- The texts of the libraries. -/
structure Texts where
  /-- How the program is used. -/
  help : String
  /-- What is said about arguments that are used wrongly. -/
  misuse : Misuse → String
  /-- Why a text stands for no options. -/
  settings : String → String
  /-- Why a text is no timestamp. -/
  timestamp : String → String
  /-- What is said when the civil time of a zone is not in the calendar. -/
  outside : String

/-- What a run takes from outside. What cannot be had comes with the reason. -/
structure World where
  /-- The text of a file. -/
  file? : String → Except String String
  /-- The time zone of a name. -/
  zone? : String → Except String Zone
  /-- The civil time in UTC. -/
  clock : Moment
  /-- The text on standard input. -/
  input : Except String String
  texts : Texts

/-- Why a run cannot look at its query. -/
inductive Failure
  | misuse (text : String)
  | configUnreadable (path reason : String)
  | configInvalid (path reason : String)
  | unknownTimeZone (zone reason : String)
  | invalidNow (text reason : String)
  /-- The program stops, since the zone has no civil time in the calendar then. -/
  | outsideCalendar (text : String)
  | inputUnreadable (reason : String)
  | emptyQuery
  deriving Repr, DecidableEq

/-- What a run ends with. -/
inductive Outcome
  /-- A text was asked for and not an answer. -/
  | shown (text : String)
  | answered (text : String)
  | unanswered (query : List Char)
  | failed (f : Failure)
  deriving Repr, DecidableEq

/-- The name and version of the program. -/
def versionText : String := "calc 0.2.0\n"

/-- The answer as it is written. -/
def answerText (json : Bool) (a : Answer) : String :=
  if json then
    (Json.ofFields [("title", .ofString a.title), ("subtitle", .ofString a.subtitle),
      ("kind", .ofString a.kind.name)]).pretty ++ "\n"
  else a.title ++ "\n" ++ a.subtitle ++ "\n"

/-- The options of a run. -/
def readOptions (w : World) : Option String → Except Failure Options
  | none => .ok {}
  | some path =>
    match w.file? path with
    | .error reason => .error (.configUnreadable path reason)
    | .ok text =>
      match Options.parse? text.toList with
      | none => .error (.configInvalid path (w.texts.settings text))
      | some o => .ok o

/-- The zone of dates, unless another is named. -/
def defaultZone : String := "UTC"

/-- The time zone of a run. -/
def readZone (w : World) (zone : Option String) : Except Failure Zone :=
  let name := zone.getD defaultZone
  (w.zone? name).mapError (.unknownTimeZone name)

/-- The instant of a run as a civil time in UTC: that of a timestamp, or that of the clock. -/
def readInstant (w : World) : Option String → Except Failure Moment
  | none => .ok w.clock
  | some text =>
    match (Timestamp.parse? text.toList).bind Timestamp.utc? with
    | none => .error (.invalidNow text (w.texts.timestamp text))
    | some utc => .ok utc

/-- The civil time of a run in its zone. -/
def readNow (w : World) (zone : Zone) (now : Option String) : Except Failure Moment := do
  let utc ← readInstant w now
  match zone.civil? utc with
  | none => .error (.outsideCalendar w.texts.outside)
  | some t => .ok t

/-- The text that holds the query of a run. -/
def readText (w : World) (words : List String) : Except Failure String :=
  if words.isEmpty then w.input.mapError .inputUnreadable else .ok (" ".intercalate words)

/-- The query of a run without blanks at its ends. -/
def readQuery (w : World) (words : List String) : Except Failure (List Char) := do
  let text ← readText w words
  let query := Text.trim text.toList
  if query.isEmpty then .error .emptyQuery else .ok query

/-- The outcome of a run that has a query to look at, or the failure before it. -/
def answer (w : World) (a : Arguments) : Except Failure Outcome := do
  let options ← readOptions w a.config
  let zone ← readZone w a.zone
  let now ← readNow w zone a.now
  let query ← readQuery w a.words
  match interpret options now query with
  | .ok r => return .answered (answerText a.json r)
  | .error _ => return .unanswered query

/-- The outcome of a run. -/
def run (w : World) (args : List String) : Outcome :=
  match readArguments {} args with
  | .error e => .failed (.misuse (w.texts.misuse e))
  | .ok .help => .shown w.texts.help
  | .ok .version => .shown versionText
  | .ok (.run a) =>
    match answer w a with
    | .ok r => r
    | .error f => .failed f

/-! ### What a run needs -/

/-- The name of the configuration that a run reads, if it reads one. -/
def needsFile? (args : List String) : Option String :=
  match readArguments {} args with
  | .ok (.run a) => a.config
  | _ => none

/-- The name of the time zone that a run looks up, if it looks one up. -/
def needsZone? (args : List String) : Option String :=
  match readArguments {} args with
  | .ok (.run a) => some (a.zone.getD defaultZone)
  | _ => none

/-- The run reads its query from standard input. -/
def needsInput (args : List String) : Bool :=
  match readArguments {} args with
  | .ok (.run a) => a.words.isEmpty
  | _ => false

/-! ### What a run leaves -/

namespace Failure

/-- The exit code for a failure. -/
def exitCode : Failure → Nat
  | outsideCalendar _ => 101
  | _ => 2

/-- What is written to standard error about a failure. -/
def message : Failure → String
  | misuse text => text
  | configUnreadable path reason => "error: Failed to read config file: " ++ path ++ ": " ++ reason
  | configInvalid path reason => "error: Invalid config file: " ++ path ++ ": " ++ reason
  | unknownTimeZone zone reason =>
    "error: unknown time zone " ++ quoted zone.toList ++ ": " ++ reason
  | invalidNow text reason => "error: Invalid --now timestamp: " ++ text ++ ": " ++ reason
  | outsideCalendar text => text
  | inputUnreadable reason => "error: Failed to read query from stdin: " ++ reason
  | emptyQuery => "error: empty query"

end Failure

namespace Outcome

/-- The exit code. -/
def exitCode : Outcome → Nat
  | shown _ => 0
  | answered _ => 0
  | unanswered _ => 1
  | failed f => f.exitCode

/-- The text on standard output. -/
def output : Outcome → String
  | shown text => text
  | answered text => text
  | unanswered _ => ""
  | failed _ => ""

/-- What is written to standard error, if anything is. -/
def message : Outcome → Option String
  | shown _ => none
  | answered _ => none
  | unanswered query => some ("no interpretation for " ++ quoted query)
  | failed f => some f.message

end Outcome

end Reckon.Command
