/-
Reading JSON texts.

The grammar is that of RFC 8259. Values are read by recursion that is bounded by the length of the
text: every step into a value, an item or a field takes a character at least.

* `Json.readNumber?`, `Json.readString?` : the values without parts.
* `Json.parse?` : the value that a whole text stands for.
-/
import Reckon.Json.Basic

namespace Reckon.Json

/-- The blanks of JSON. -/
def isJsonBlank (c : Char) : Bool :=
  c == ' ' || c == '\n' || c == '\t' || c == '\r'

/-- The text without blanks in front. -/
def skipBlanks (s : List Char) : List Char :=
  s.dropWhile isJsonBlank

/-! ### Numbers -/

/-- One digit or more, and the rest. -/
def readDigits? (s : List Char) : Option (List Char × List Char) :=
  let (ds, r) := s.span Char.isDigit
  if ds.isEmpty then none else some (ds, r)

/-- The whole part of a number: a single zero, or digits that do not begin with zero. -/
def readWhole? : List Char → Option (List Char × List Char)
  | '0' :: r => some (['0'], r)
  | s => readDigits? s

/-- The point and the digits behind it, if there is a point. -/
def readFraction? : List Char → Option (List Char × List Char)
  | '.' :: r => (readDigits? r).map fun (ds, r) => ('.' :: ds, r)
  | s => some ([], s)

/-- The sign of an exponent, if there is one. -/
def spanSign : List Char → List Char × List Char
  | '+' :: r => (['+'], r)
  | '-' :: r => (['-'], r)
  | s => ([], s)

/-- The exponent, if there is one. -/
def readExponent? : List Char → Option (List Char × List Char)
  | c :: r =>
    if c = 'e' ∨ c = 'E' then
      let (sign, r) := spanSign r
      (readDigits? r).map fun (ds, r) => (c :: sign ++ ds, r)
    else some ([], c :: r)
  | [] => some ([], [])

/-- A number without its sign. -/
def readUnsigned? (s : List Char) : Option (List Char × List Char) := do
  let (whole, s) ← readWhole? s
  let (fraction, s) ← readFraction? s
  let (exponent, s) ← readExponent? s
  return (whole ++ fraction ++ exponent, s)

/-- A number. -/
def readNumber? : List Char → Option (List Char × List Char)
  | '-' :: s => (readUnsigned? s).map fun (n, r) => ('-' :: n, r)
  | s => readUnsigned? s

/-! ### Strings -/

/-- What stands inside quotation marks: characters, and code units of UTF-16 in escapes. -/
inductive TextUnit
  | char (c : Char)
  | unit (n : Nat)
  deriving Repr

/-- The value of a hexadecimal digit. -/
def hexValue? (c : Char) : Option Nat :=
  if c.isDigit then some (c.toNat - '0'.toNat)
  else if 'a' ≤ c ∧ c ≤ 'f' then some (c.toNat - 'a'.toNat + 10)
  else if 'A' ≤ c ∧ c ≤ 'F' then some (c.toNat - 'A'.toNat + 10)
  else none

/-- The code unit of four hexadecimal digits. -/
def hexUnit? (a b c d : Char) : Option Nat := do
  let a ← hexValue? a
  let b ← hexValue? b
  let c ← hexValue? c
  let d ← hexValue? d
  return ((a * 16 + b) * 16 + c) * 16 + d

/-- The character of an escape with one letter. -/
def escapedChar? : Char → Option Char
  | '"' => some '"'
  | '\\' => some '\\'
  | '/' => some '/'
  | 'b' => some '\x08'
  | 'f' => some '\x0c'
  | 'n' => some '\n'
  | 'r' => some '\r'
  | 't' => some '\t'
  | _ => none

/-- The units up to the closing quotation mark, and the rest. -/
def readUnits? : List Char → Option (List TextUnit × List Char)
  | [] => none
  | '"' :: r => some ([], r)
  | '\\' :: 'u' :: a :: b :: c :: d :: r =>
    match hexUnit? a b c d, readUnits? r with
    | some n, some (us, r) => some (.unit n :: us, r)
    | _, _ => none
  | '\\' :: e :: r =>
    match escapedChar? e, readUnits? r with
    | some c, some (us, r) => some (.char c :: us, r)
    | _, _ => none
  | c :: r =>
    if c.toNat < 0x20 ∨ c = '\\' then none
    else
      match readUnits? r with
      | some (us, r) => some (.char c :: us, r)
      | none => none

/-- The first half of a surrogate pair. -/
def isHighSurrogate (n : Nat) : Bool :=
  0xd800 ≤ n && n < 0xdc00

/-- The second half of a surrogate pair. -/
def isLowSurrogate (n : Nat) : Bool :=
  0xdc00 ≤ n && n < 0xe000

/-- The characters of units; half a surrogate pair has none. -/
def decodeUnits : List TextUnit → Option (List Char)
  | [] => some []
  | .char c :: us => (decodeUnits us).map (c :: ·)
  | .unit a :: .unit b :: us =>
    if isHighSurrogate a && isLowSurrogate b then
      (decodeUnits us).map (Char.ofNat (0x10000 + (a - 0xd800) * 0x400 + (b - 0xdc00)) :: ·)
    else if isHighSurrogate a || isLowSurrogate a then none
    else (decodeUnits (.unit b :: us)).map (Char.ofNat a :: ·)
  | .unit a :: us =>
    if isHighSurrogate a || isLowSurrogate a then none
    else (decodeUnits us).map (Char.ofNat a :: ·)

/-- A string behind its opening quotation mark. -/
def readString? (s : List Char) : Option (Option (List Char) × List Char) :=
  (readUnits? s).map fun (us, r) => (decodeUnits us, r)

/-! ### Values -/

mutual

/-- A value in front of a text, and the rest. -/
def readValue? : Nat → List Char → Option (Json × List Char)
  | 0, _ => none
  | fuel + 1, s =>
    match skipBlanks s with
    | 'n' :: 'u' :: 'l' :: 'l' :: r => some (null, r)
    | 't' :: 'r' :: 'u' :: 'e' :: r => some (bool true, r)
    | 'f' :: 'a' :: 'l' :: 's' :: 'e' :: r => some (bool false, r)
    | '"' :: r => (readString? r).map fun (s, r) => (string s, r)
    | '[' :: r =>
      match skipBlanks r with
      | ']' :: r => some (array [], r)
      | r => (readItems? fuel r).map fun (vs, r) => (array vs, r)
    | '\x7b' :: r =>
      match skipBlanks r with
      | '\x7d' :: r => some (object [], r)
      | r => (readFields? fuel r).map fun (fs, r) => (object fs, r)
    | r => (readNumber? r).map fun (n, r) => (number n, r)

/-- The items of an array up to its closing bracket, at least one. -/
def readItems? : Nat → List Char → Option (List Json × List Char)
  | 0, _ => none
  | fuel + 1, s =>
    match readValue? fuel s with
    | none => none
    | some (v, r) =>
      match skipBlanks r with
      | ']' :: r => some ([v], r)
      | ',' :: r => (readItems? fuel r).map fun (vs, r) => (v :: vs, r)
      | _ => none

/-- The fields of an object up to its closing brace, at least one. -/
def readFields? : Nat → List Char → Option (List (Option (List Char) × Json) × List Char)
  | 0, _ => none
  | fuel + 1, s =>
    match skipBlanks s with
    | '"' :: r =>
      match readString? r with
      | none => none
      | some (k, r) =>
        match skipBlanks r with
        | ':' :: r =>
          match readValue? fuel r with
          | none => none
          | some (v, r) =>
            match skipBlanks r with
            | '\x7d' :: r => some ([(k, v)], r)
            | ',' :: r => (readFields? fuel r).map fun (fs, r) => ((k, v) :: fs, r)
            | _ => none
        | _ => none
    | _ => none

end

/-- The value that a text stands for. Nothing but blanks may follow it. -/
def parse? (s : List Char) : Option Json :=
  match readValue? (s.length + 1) s with
  | some (v, r) => if (skipBlanks r).isEmpty then some v else none
  | none => none

end Reckon.Json
