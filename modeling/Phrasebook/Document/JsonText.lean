import Phrasebook.Number.Shortest
import Phrasebook.Text.Digit
import Phrasebook.Value.Display

/-!
# Writing JSON documents

* `Json.write` writes a value over several lines, with two spaces for each level. An empty list or table takes one line.
  Texts keep their characters but for quotes, backslashes and control characters.
-/

namespace Phrasebook.Json

/-- A character as it is written in a text. -/
def escapeChar (c : Char) : String :=
  if c = '"' then "\\\""
  else if c = '\\' then "\\\\"
  else if c = '\n' then "\\n"
  else if c = '\r' then "\\r"
  else if c = '\t' then "\\t"
  else if c = '\x08' then "\\b"
  else if c = '\x0c' then "\\f"
  else if c.toNat < 0x20 then "\\u" ++ Text.paddedHex 4 c.toNat
  else String.singleton c

/-- A text as it is written. -/
def writeText (s : String) : String := "\"" ++ String.join (s.toList.map escapeChar) ++ "\""

/-- A new line at a level. -/
def lineAt (level : Nat) : String := "\n" ++ String.ofList (List.replicate (2 * level) ' ')

/-- Parts between brackets, each on a line of its own. -/
def block (level : Nat) (first last : String) (parts : List String) : String :=
  if parts.isEmpty then first ++ last
  else first ++ lineAt (level + 1) ++ ("," ++ lineAt (level + 1)).intercalate parts ++ lineAt level ++ last

mutual

/-- The value at a level. -/
def writeAt (level : Nat) : Value → String
  | .null => "null"
  | .bool b => if b then "true" else "false"
  | .int n => toString n
  | .float .nan => "NaN"
  | .float (.infinite negative) => if negative then "-Infinity" else "Infinity"
  | .float x => x.toText
  | .list vs => block level "[" "]" (writeAll (level + 1) vs)
  | .table items => block level "\x7b" "\x7d" (writeItems (level + 1) items)
  | v => writeText v.plain

/-- The values of a list at a level. -/
def writeAll (level : Nat) : List Value → List String
  | [] => []
  | v :: vs => writeAt level v :: writeAll level vs

/-- The items of a table at a level. -/
def writeItems (level : Nat) : List (Value × Value) → List String
  | [] => []
  | (k, v) :: items => (writeText k.plain ++ ": " ++ writeAt level v) :: writeItems level items

end

/-- The value as a document. -/
def write (v : Value) : String := writeAt 0 v

end Phrasebook.Json
