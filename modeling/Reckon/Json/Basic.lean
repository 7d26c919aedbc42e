/-
JSON values and their texts.

Numbers are kept as written, because a reader of settings has to tell `12` from `12.0`. The fields
of an object are kept in order, a name that occurs twice included. A string may be written with
escapes that name half a surrogate pair; it then has no characters.

* `Json` : the values.
* `Json.compact`, `Json.pretty` : a value on one line, and with an indentation of two spaces.
* `Json.fields?` : the values of named fields.
-/

namespace Reckon

/-- A JSON value. -/
inductive Json
  | null
  | bool (b : Bool)
  | number (text : List Char)
  | string (s : Option (List Char))
  | array (items : List Json)
  | object (fields : List (Option (List Char) × Json))
  deriving Repr

namespace Json

/-- A string value. -/
def ofString (s : String) : Json :=
  string (some s.toList)

/-- A number that is a natural number. -/
def ofNat (n : Nat) : Json :=
  number (Nat.toDigits 10 n)

/-- A number that is an integer. -/
def ofInt (n : Int) : Json :=
  number (if n < 0 then '-' :: Nat.toDigits 10 n.natAbs else Nat.toDigits 10 n.natAbs)

/-- An object with these fields. -/
def ofFields (fs : List (String × Json)) : Json :=
  object (fs.map fun (k, v) => (some k.toList, v))

/-! ### Writing -/

/-- The hexadecimal digit for a number below 16. -/
def hexDigit (n : Nat) : Char :=
  Char.ofNat (if n < 10 then '0'.toNat + n else 'a'.toNat + (n - 10))

/-- A character inside quotation marks. -/
def escaped (c : Char) : List Char :=
  if c = '"' then ['\\', '"']
  else if c = '\\' then ['\\', '\\']
  else if c = '\n' then ['\\', 'n']
  else if c = '\r' then ['\\', 'r']
  else if c = '\t' then ['\\', 't']
  else if c = '\x08' then ['\\', 'b']
  else if c = '\x0c' then ['\\', 'f']
  else if c.toNat < 0x20 then
    ['\\', 'u', '0', '0', hexDigit (c.toNat / 16), hexDigit (c.toNat % 16)]
  else [c]

/-- Characters as a JSON string. -/
def quotedText (s : List Char) : String :=
  "\"" ++ String.ofList (s.flatMap escaped) ++ "\""

mutual

/-- The value on one line. -/
def compact : Json → String
  | null => "null"
  | bool b => if b then "true" else "false"
  | number text => String.ofList text
  | string s => quotedText (s.getD [])
  | array items => "[" ++ ",".intercalate (compactItems items) ++ "]"
  | object fields => "\x7b" ++ ",".intercalate (compactFields fields) ++ "\x7d"

/-- Each value on one line. -/
def compactItems : List Json → List String
  | [] => []
  | v :: vs => compact v :: compactItems vs

/-- Each field on one line. -/
def compactFields : List (Option (List Char) × Json) → List String
  | [] => []
  | (k, v) :: fs => (quotedText (k.getD []) ++ ":" ++ compact v) :: compactFields fs

end

/-- So many levels of indentation. -/
def indentation (depth : Nat) : String :=
  String.ofList (List.replicate (2 * depth) ' ')

/-- The parts of an array or object between its brackets, each on a line of its own. -/
def bracketed (opening closing : String) (depth : Nat) (parts : List String) : String :=
  if parts.isEmpty then opening ++ closing
  else
    opening ++ "\n" ++ indentation (depth + 1) ++
      (",\n" ++ indentation (depth + 1)).intercalate parts ++ "\n" ++ indentation depth ++ closing

mutual

/-- The value with each item and field on a line of its own, `depth` levels deep. -/
def prettyAt (depth : Nat) : Json → String
  | null => "null"
  | bool b => if b then "true" else "false"
  | number text => String.ofList text
  | string s => quotedText (s.getD [])
  | array items => bracketed "[" "]" depth (prettyItems (depth + 1) items)
  | object fields => bracketed "\x7b" "\x7d" depth (prettyFields (depth + 1) fields)

/-- The items of an array. -/
def prettyItems (depth : Nat) : List Json → List String
  | [] => []
  | v :: vs => prettyAt depth v :: prettyItems depth vs

/-- The fields of an object. -/
def prettyFields (depth : Nat) : List (Option (List Char) × Json) → List String
  | [] => []
  | (k, v) :: fs => (quotedText (k.getD []) ++ ": " ++ prettyAt depth v) :: prettyFields depth fs

end

/-- The value with each item and field on a line of its own. -/
def pretty (v : Json) : String :=
  prettyAt 0 v

/-! ### Fields -/

/-- The value of the first field with this name. -/
def field? (name : String) : Json → Option Json
  | object fields => fields.lookup (some name.toList)
  | _ => none

/-- How many fields of a list have this name. -/
def countName (name : String) (fields : List (Option (List Char) × Json)) : Nat :=
  fields.countP fun f => f.1 == some name.toList

/-- The values of fields with these names. An object gives them by name; a name may be missing, but
none may occur twice, and other fields are ignored as long as they have a name. An array gives them
by position, with the last ones missing if it is short. -/
def fields? (names : List String) : Json → Option (List (Option Json))
  | object fields =>
    if fields.all (fun f => f.1.isSome) && names.all (fun n => countName n fields ≤ 1) then
      some (names.map fun n => fields.lookup (some n.toList))
    else none
  | array items =>
    if items.length ≤ names.length then
      some (items.map some ++ List.replicate (names.length - items.length) none)
    else none
  | _ => none

end Json

end Reckon
