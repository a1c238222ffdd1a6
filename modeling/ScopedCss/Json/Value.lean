import ScopedCss.Entries
import ScopedCss.Json.Document
import ScopedCss.Json.Number

/-!
# JSON values

A value is a document whose strings and numbers are decoded.  Of members with one key the last value
counts, at the place of the first.  Values are written compactly or, for reports, over several
lines.
-/
namespace ScopedCss.Json

/-- A JSON value. -/
inductive Value where
  | null
  | bool (b : Bool)
  | number (n : Number)
  | string (t : Text)
  | array (items : List Value)
  | object (members : List (Text × Value))

namespace Value

/-! ### Reading -/

/-- The character of a surrogate pair. -/
def pairChar (high low : Nat) : Char :=
  Char.ofNat (0x10000 + (high - 0xD800) * 0x400 + (low - 0xDC00))

/-- The text of a string, unless a surrogate stands in it without its partner. -/
def decode? : List StringPart → Option Text
  | [] => some []
  | .char c :: parts => (decode? parts).map (c :: ·)
  | .unit high :: .unit low :: parts =>
    if 0xD800 ≤ high ∧ high < 0xDC00 ∧ 0xDC00 ≤ low ∧ low < 0xE000 then
      (decode? parts).map (pairChar high low :: ·)
    else if 0xD800 ≤ high ∧ high < 0xE000 then none
    else (decode? (.unit low :: parts)).map (Char.ofNat high :: ·)
  | .unit n :: parts =>
    if 0xD800 ≤ n ∧ n < 0xE000 then none else (decode? parts).map (Char.ofNat n :: ·)

mutual

/-- The value of a document that nests no deeper than a given number of levels and whose strings and
numbers have values. -/
def ofDocument? (levels : Nat) : Document → Option Value
  | .null => some null
  | .bool b => some (bool b)
  | .number literal => (Number.ofLiteral? literal).map number
  | .string parts => (decode? parts).map string
  | .array items =>
    if levels = 0 then none else (ofItems? (levels - 1) items).map array
  | .object members =>
    if levels = 0 then none
    else (ofMembers? (levels - 1) members).map fun members =>
      object (members.foldl (fun entries (key, value) => Entries.record key value entries) [])

/-- The values of the items of an array. -/
def ofItems? (levels : Nat) : List Document → Option (List Value)
  | [] => some []
  | item :: items => do
    let value ← ofDocument? levels item
    return value :: (← ofItems? levels items)

/-- The keys and values of the members of an object. -/
def ofMembers? (levels : Nat) : List (List StringPart × Document) → Option (List (Text × Value))
  | [] => some []
  | (key, document) :: members => do
    let key ← decode? key
    let value ← ofDocument? levels document
    return (key, value) :: (← ofMembers? levels members)

end

/-! ### Writing -/

/-- The digit of a number below 16. -/
def hexDigit (n : Nat) : Char := "0123456789abcdef".toList.getD n '0'

/-- A character as it is written in a string.  Only quotes, backslashes and control characters are
escaped. -/
def escape (c : Char) : Text :=
  match [('"', '"'), ('\\', '\\'), ('\x08', 'b'), ('\t', 't'), ('\n', 'n'), ('\x0c', 'f'),
      ('\r', 'r')].lookup c with
  | some e => ['\\', e]
  | none =>
    if c.toNat < 0x20 then "\\u00".toList ++ [hexDigit (c.toNat / 16), hexDigit (c.toNat % 16)]
    else [c]

/-- A text as a string. -/
def quote (t : Text) : Text := '"' :: t.flatMap escape ++ ['"']

mutual

/-- A value without spaces. -/
def compact : Value → Text
  | null => "null".toList
  | bool b => (if b then "true" else "false").toList
  | number n => n.text
  | string t => quote t
  | array items => '[' :: Text.joinWith [','] (compactItems items) ++ [']']
  | object members => '{' :: Text.joinWith [','] (compactMembers members) ++ ['}']

/-- The items of an array without spaces. -/
def compactItems : List Value → List Text
  | [] => []
  | item :: items => compact item :: compactItems items

/-- The members of an object without spaces. -/
def compactMembers : List (Text × Value) → List Text
  | [] => []
  | (key, value) :: members => (quote key ++ ':' :: compact value) :: compactMembers members

end

/-- A line break and the indentation of a level. -/
def newLine (level : Nat) : Text := '\n' :: List.replicate (2 * level) ' '

/-- Pieces on lines of their own between brackets that stand at a level. -/
def block (level : Nat) (opening closing : Char) (pieces : List Text) : Text :=
  if pieces.isEmpty then [opening, closing]
  else
    opening :: newLine (level + 1) ++ Text.joinWith (',' :: newLine (level + 1)) pieces ++
      newLine level ++ [closing]

mutual

/-- A value over several lines, each level indented by two spaces, where the value stands at a
level. -/
def prettyAt (level : Nat) : Value → Text
  | array items => block level '[' ']' (prettyItems (level + 1) items)
  | object members => block level '{' '}' (prettyMembers (level + 1) members)
  | null => "null".toList
  | bool b => (if b then "true" else "false").toList
  | number n => n.text
  | string t => quote t

/-- The items of an array over several lines. -/
def prettyItems (level : Nat) : List Value → List Text
  | [] => []
  | item :: items => prettyAt level item :: prettyItems level items

/-- The members of an object over several lines. -/
def prettyMembers (level : Nat) : List (Text × Value) → List Text
  | [] => []
  | (key, value) :: members =>
    (quote key ++ ": ".toList ++ prettyAt level value) :: prettyMembers level members

end

/-- A value over several lines. -/
def pretty (value : Value) : Text := prettyAt 0 value

end Value
end ScopedCss.Json
