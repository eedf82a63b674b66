import Phrasebook.Text.Digit
import Phrasebook.Text.Printable

/-!
# Quoted text

A text in a message is quoted so that its ends and its invisible characters can be seen.

* `quote` uses single quotes, or double ones for a text that holds a single quote and no double one.
* The quote in use and the backslash are escaped, and so is every character that is not printed.
-/

namespace Phrasebook.Text

/-- The quote that a text is put in. -/
def quoteFor (cs : List Char) : Char :=
  if cs.contains '\'' && !cs.contains '"' then '"' else '\''

/-- A character as it is written between the quotes `q`. -/
def escapeChar (q c : Char) : String :=
  if c = q || c = '\\' then String.ofList ['\\', c]
  else if c = '\n' then "\\n"
  else if c = '\r' then "\\r"
  else if c = '\t' then "\\t"
  else if isPrintable c then String.singleton c
  else if c.toNat < 0x100 then "\\x" ++ paddedHex 2 c.toNat
  else if c.toNat < 0x10000 then "\\u" ++ paddedHex 4 c.toNat
  else "\\U" ++ paddedHex 8 c.toNat

/-- The text in quotes. -/
def quote (s : String) : String :=
  let q := quoteFor s.toList
  String.singleton q ++ String.join (s.toList.map (escapeChar q)) ++ String.singleton q

/-- The octets in quotes: ASCII characters are written as text, the others by number. -/
def quoteBytes (bs : List UInt8) : String :=
  let cs := bs.map fun b => Char.ofNat b.toNat
  let q := quoteFor cs
  let one (c : Char) : String := if c.toNat < 127 then escapeChar q c else "\\x" ++ paddedHex 2 c.toNat
  "b" ++ String.singleton q ++ String.join (cs.map one) ++ String.singleton q

end Phrasebook.Text
