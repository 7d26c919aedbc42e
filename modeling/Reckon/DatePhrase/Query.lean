/-
Date queries, and how texts are read as date queries.

There are five shapes of phrases: a weekday alone or with a direction ("next monday"), a weekday
counted in a month ("last friday of february"), a day of a month ("october 23"), a day near today
("tomorrow"), and such a day shifted ("today + 3 days"). Texts are read in lower case with single
spaces, and the first three shapes may have an article in front.

* `Query` : what a phrase asks for.
* `Reading` : a query with the language of its words.
* `read?` : the reading of a text, if it is a date phrase.
-/
import Reckon.DatePhrase.Vocabulary
import Reckon.Number.Numeral
import Reckon.Text.Split

namespace Reckon.DatePhrase

open Calendar Text

/-- Which occurrence of a weekday is meant. -/
inductive Qualifier
  /-- The first one after today. -/
  | next
  /-- The latest one before today. -/
  | last
  /-- The one in the current week, which begins on Sunday. -/
  | nearest
  deriving Repr, DecidableEq

/-- What a date phrase asks for. -/
inductive Query
  | namedWeekday (weekday : Weekday) (qualifier : Qualifier)
  | ordinalWeekday (ordinal : Ordinal) (weekday : Weekday) (month : Nat)
  | monthDay (month day : Nat)
  | relative (days : Int)
  | relativeArithmetic (baseDays amount : Int) (unit : DateUnit)
  deriving Repr, DecidableEq

/-- A query and the language that its words come from. -/
structure Reading where
  query : Query
  language : Language
  deriving Repr, DecidableEq

/-- The articles and the demonstrative that may stand in front. -/
def articles : List String := ["the", "el", "este"]

/-- The words without an article in front of other words. -/
def dropArticle : List String → List String
  | w :: v :: ws => if w ∈ articles then v :: ws else w :: v :: ws
  | ws => ws

/-! ### Weekdays -/

/-- The query for a weekday with a qualifier. A weekday alone needs its full name; "sun" and "wed"
are too ambiguous. -/
def namedWeekdayOf (w : Option (Weekday × Language)) (q : Qualifier) : Option Reading :=
  w.map fun (weekday, language) => ⟨.namedWeekday weekday q, language⟩

/-- A weekday alone or with a direction. -/
def readNamedWeekday? (ws : List String) : Option Reading :=
  match dropArticle ws with
  | [w] => namedWeekdayOf (fullWeekday? w) .nearest
  | [w, "que", "viene"] => namedWeekdayOf (weekday? w) .next
  | [w, "pasado"] => namedWeekdayOf (weekday? w) .last
  | ["próximo", w] => namedWeekdayOf (weekday? w) .next
  | ["proximo", w] => namedWeekdayOf (weekday? w) .next
  | ["next", w] => namedWeekdayOf (weekday? w) .next
  | ["last", w] => namedWeekdayOf (weekday? w) .last
  | ["this", w] => namedWeekdayOf (weekday? w) .nearest
  | _ => none

/-- The query for an ordinal, a weekday and a month in words. -/
def ordinalWeekdayOf (o w m : String) : Option Reading := do
  let (ordinal, language) ← ordinal? o
  let (weekday, _) ← weekday? w
  let (month, _) ← month? m
  return ⟨.ordinalWeekday ordinal weekday month, language⟩

/-- A weekday counted in a month. -/
def readOrdinalWeekday? (ws : List String) : Option Reading :=
  match dropArticle ws with
  | [o, w, "of", m] => ordinalWeekdayOf o w m
  | [o, w, "de", m] => ordinalWeekdayOf o w m
  | [o, w, "of", "the", m] => ordinalWeekdayOf o w m
  | _ => none

/-! ### Days of a month -/

/-- The endings of English ordinals. -/
def ordinalEndings : List String := ["st", "nd", "rd", "th"]

/-- A word without one ending of an English ordinal. -/
def dropOrdinalEnding (s : List Char) : List Char :=
  (ordinalEndings.findSome? fun e => stripSuffix? e.toList s).getD s

/-- A word without one plus sign in front. -/
def dropPlus : List Char → List Char
  | '+' :: s => s
  | s => s

/-- A day of a month in digits, with a plus sign in front or without one and with the ending of an
English ordinal or without one. -/
def readDay? (word : String) : Option Nat :=
  let ds := dropPlus (dropOrdinalEnding word.toList)
  if ds ≠ [] ∧ ds.all Char.isDigit then
    let n := Number.digitsValue ds
    if 1 ≤ n ∧ n ≤ 31 then some n else none
  else none

/-- The query for a month and a day in words. -/
def monthDayOf (m d : String) : Option Reading := do
  let (month, language) ← month? m
  let day ← readDay? d
  return ⟨.monthDay month day, language⟩

/-- A day of a month. Of two words the first is the month if it can be. -/
def readMonthDay? (ws : List String) : Option Reading :=
  match dropArticle ws with
  | [d, "de", m] => monthDayOf m d
  | [a, b] => if (month? a).isSome then monthDayOf a b else monthDayOf b a
  | _ => none

/-! ### Days near today -/

/-- A day near today. -/
def readRelative? (s : List Char) : Option Reading :=
  (relativeDays? (String.ofList s)).map fun (days, language) => ⟨.relative days, language⟩

/-- The words for signs, with the spaces around them. -/
def signWords : List (String × Int) := [
  (" plus ", 1),
  (" más ", 1),
  (" mas ", 1),
  (" minus ", -1),
  (" menos ", -1)]

/-- The character is a sign. -/
def isSign (c : Char) : Bool :=
  c == '+' || c == '-'

/-- What stands before a sign, the sign, and what stands behind it. A word for a sign is looked for
first, in the order of the words; otherwise the first sign character counts. -/
def splitSigned? (s : List Char) : Option (List Char × Int × List Char) :=
  match signWords.findSome? fun (w, sign) =>
      (splitOnce? w.toList s).map fun (a, b) => (a, sign, b) with
  | some r => some r
  | none =>
    match s.dropWhile fun c => !isSign c with
    | [] => none
    | c :: r => some (s.takeWhile fun c => !isSign c, if c = '+' then 1 else -1, r)

/-- The bound on amounts. -/
def amountBound : Nat := Nat.pow 2 63

/-- An amount in digits and a unit behind it. -/
def readShift? (s : List Char) : Option (Nat × DateUnit × Language) :=
  let s := trim s
  let (ds, rest) := Number.spanDigits s
  let n := Number.digitsValue ds
  if ds ≠ [] ∧ n < amountBound then
    (dateUnit? (String.ofList (trim rest))).map fun (unit, language) => (n, unit, language)
  else none

/-- Spanish if one of two languages is. -/
def Language.join (a b : Language) : Language :=
  if a = es ∨ b = es then es else en

/-- A day near today, shifted. -/
def readArithmetic? (s : List Char) : Option Reading := do
  let (base, sign, rest) ← splitSigned? s
  let (baseDays, baseLanguage) ← relativeDays? (String.ofList (trim base))
  let (n, unit, unitLanguage) ← readShift? rest
  return ⟨.relativeArithmetic baseDays (sign * n) unit, baseLanguage.join unitLanguage⟩

/-- The reading of a text, if it is a date phrase. -/
def read? (s : List Char) : Option Reading :=
  let ws := (wordsOf s).map String.ofList
  let text := unwords (wordsOf s)
  readNamedWeekday? ws <|> readOrdinalWeekday? ws <|> readMonthDay? ws <|> readRelative? text <|>
    readArithmetic? text

end Reckon.DatePhrase
