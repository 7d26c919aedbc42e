/-
The arguments of the command line.

Options come before the words of the query. The first argument that is no option begins the query,
and all that follow belong to it; `--` ends the options as well. An argument that only looks like an
option is a word, so that `-2 * 3` needs no escape. Reading stops at the first argument that is used
wrongly.

* `Arguments` : what the options say, and the words.
* `Misuse` : what is wrong with an argument.
* `readArguments` : the arguments read one after another.
* `startsOption` : what the value of an option cannot be, unless it is attached by `=`.
-/

namespace Reckon.Command

/-- What the options say, and the words of the query. -/
structure Arguments where
  words : List String := []
  zone : Option String := none
  now : Option String := none
  config : Option String := none
  json : Bool := false
  /-- Read, and without effect on the outcome. -/
  verbose : Bool := false
  /-- The long names of the options that were given, in their order. -/
  given : List String := []
  deriving Repr, DecidableEq

/-- What the program is asked to do. -/
inductive Request
  | help
  | version
  | run (a : Arguments)
  deriving Repr, DecidableEq

/-- The options that take a value. -/
inductive Setting
  | zone
  | now
  | config
  deriving Repr, DecidableEq

/-- The options that take none. -/
inductive Flag
  | json
  | verbose
  | help
  | version
  deriving Repr, DecidableEq

namespace Setting

/-- The long name of a setting. -/
def name : Setting → String
  | zone => "tz"
  | now => "now"
  | config => "config"

/-- The setting with this long name. -/
def ofName? : String → Option Setting
  | "tz" => some zone
  | "now" => some now
  | "config" => some config
  | _ => none

end Setting

/-- The long name of a flag. -/
def Flag.name : Flag → String
  | json => "json"
  | verbose => "verbose"
  | help => "help"
  | version => "version"

/-- The flag with this long name. -/
def Flag.ofName? : String → Option Flag
  | "json" => some json
  | "verbose" => some verbose
  | "help" => some help
  | "version" => some version
  | _ => none

/-- The flag with this letter. -/
def Flag.ofLetter? : Char → Option Flag
  | 'v' => some verbose
  | 'h' => some help
  | 'V' => some version
  | _ => none

/-- What an argument in front of the query is. -/
inductive Form
  /-- The end of the options. -/
  | escape
  | setting (s : Setting) (attached : Option String)
  | flag (f : Flag) (attached : Option String)
  /-- One dash and letters of flags. -/
  | letters (fs : List Flag)
  | word
  deriving Repr, DecidableEq

/-- The name of a long option and the value attached to it. -/
def splitLong (s : List Char) : String × Option String :=
  match s.dropWhile (· ≠ '=') with
  | [] => (String.ofList s, none)
  | _ :: v => (String.ofList (s.takeWhile (· ≠ '=')), some (String.ofList v))

/-- The form of an argument with two dashes in front. -/
def longForm (s : List Char) : Form :=
  let (name, attached) := splitLong s
  match Setting.ofName? name, Flag.ofName? name with
  | some x, _ => .setting x attached
  | none, some f => .flag f attached
  | none, none => .word

/-- The form of an argument. -/
def formOf (arg : String) : Form :=
  match arg.toList with
  | ['-', '-'] => .escape
  | '-' :: '-' :: s => longForm s
  | '-' :: c :: s =>
    match (c :: s).mapM Flag.ofLetter? with
    | some fs => .letters fs
    | none => .word
  | _ => .word

/-- An argument that starts an option or ends the options. It is not the value of the option before
it. -/
def startsOption (arg : String) : Bool :=
  formOf arg != .word

/-- What can be wrong with an argument. -/
inductive Cause
  | repeatedFlag (f : Flag)
  | repeatedSetting (s : Setting)
  /-- A value is attached to a flag. -/
  | unwantedValue (f : Flag) (value : String)
  /-- A setting has no value, or a configuration no name. -/
  | missingValue (s : Setting)
  deriving Repr, DecidableEq

/-- What is wrong with an argument, and the options that were given before it. -/
structure Misuse where
  cause : Cause
  given : List String
  deriving Repr, DecidableEq

namespace Arguments

/-- The value that a setting was given. -/
def value? (a : Arguments) : Setting → Option String
  | .zone => a.zone
  | .now => a.now
  | .config => a.config

/-- The arguments with one more option given. -/
def withGiven (a : Arguments) (name : String) : Arguments :=
  { a with given := a.given ++ [name] }

/-- The arguments with a value for a setting. -/
def withValue (a : Arguments) (value : String) : Setting → Arguments
  | .zone => { a with zone := some value }
  | .now => { a with now := some value }
  | .config => { a with config := some value }

end Arguments

/-- The arguments with a setting given a value; no setting is given twice, and a configuration has a
name. -/
def setValue (a : Arguments) (value : String) (s : Setting) : Except Misuse Arguments :=
  if (a.value? s).isSome then .error ⟨.repeatedSetting s, a.given⟩
  else if s = .config ∧ value.isEmpty then .error ⟨.missingValue s, a.given⟩
  else .ok ((a.withGiven s.name).withValue value s)

/-- The arguments after flags, or the request that a flag makes at once. No flag is given twice. -/
def setFlags (a : Arguments) : List Flag → Except Misuse (Arguments ⊕ Request)
  | [] => .ok (.inl a)
  | .help :: _ => .ok (.inr .help)
  | .version :: _ => .ok (.inr .version)
  | .json :: fs =>
    if a.json then .error ⟨.repeatedFlag .json, a.given⟩
    else setFlags { a.withGiven Flag.json.name with json := true } fs
  | .verbose :: fs =>
    if a.verbose then .error ⟨.repeatedFlag .verbose, a.given⟩
    else setFlags { a.withGiven Flag.verbose.name with verbose := true } fs

/-- The request that the arguments make, of which those read before say `a`, or what is wrong with
one of them. -/
def readArguments (a : Arguments) : List String → Except Misuse Request
  | [] => .ok (.run a)
  | arg :: rest =>
    match formOf arg with
    | .escape => .ok (.run { a with words := rest })
    | .word => .ok (.run { a with words := arg :: rest })
    | .flag f (some value) => .error ⟨.unwantedValue f value, a.given⟩
    | .flag f none =>
      match setFlags a [f] with
      | .ok (.inl a) => readArguments a rest
      | .ok (.inr r) => .ok r
      | .error e => .error e
    | .letters fs =>
      match setFlags a fs with
      | .ok (.inl a) => readArguments a rest
      | .ok (.inr r) => .ok r
      | .error e => .error e
    | .setting s (some value) =>
      match setValue a value s with
      | .ok a => readArguments a rest
      | .error e => .error e
    | .setting s none =>
      match rest with
      | [] => .error ⟨.missingValue s, a.given⟩
      | value :: rest =>
        if startsOption value then .error ⟨.missingValue s, a.given⟩
        else
          match setValue a value s with
          | .ok a => readArguments a rest
          | .error e => .error e

end Reckon.Command
