import Phrasebook.Text.Cut
import Phrasebook.Value.Display

/-!
# Addresses

A page is served under an address whose first segment may be a locale, below a base address that a router may add by
itself.

* `Address.strip` takes off the base and the locale.
* `Address.relocate` gives the address of the same page in another locale, with its query.
* `Query.encode` writes parameters as a query.
-/

namespace Phrasebook

/-! ## Queries -/

/-- The query of an address: its text, or the parameters that it holds. -/
inductive Query where
  | text (s : String)
  | params (items : Table)

namespace Query

/-- Whether a character stands for itself in a query. -/
def isPlain (c : Char) : Bool := c.isAlphanum || c = '_' || c = '.' || c = '-' || c = '~'

/-- An octet as it is written in a query: a space is a plus, and what does not stand for itself is given by number. -/
def encodeByte (b : UInt8) : String :=
  let c := Char.ofNat b.toNat
  if b < 128 && isPlain c then String.singleton c
  else if c = ' ' then "+"
  else "%" ++ (Text.paddedHex 2 b.toNat).map Char.toUpper

/-- The octets of a value: its own, or those of its text. -/
def bytesOf : Value → List UInt8
  | .bytes bs => bs
  | v => v.plain.toUTF8.toList

/-- A value as it is written in a query. -/
def encodeValue (v : Value) : String := String.join ((bytesOf v).map encodeByte)

/-- Parameters as a query. -/
def encode (items : Table) : String :=
  "&".intercalate (items.map fun (k, v) => encodeValue k ++ "=" ++ encodeValue v)

/-- The text of a query without the question marks before it. -/
def toText : Query → List Char
  | text s => s.toList.dropWhile (· = '?')
  | params items => (encode items).toList.dropWhile (· = '?')

end Query

/-! ## Addresses -/

namespace Address

/-- The text without slashes at its end. -/
def trimSlashes (cs : List Char) : List Char := (cs.reverse.dropWhile (· = '/')).reverse

/-- The address below a base; an address that does not lie below the base stays as it is. -/
def below (base path : List Char) : List Char :=
  let trimmed := trimSlashes base
  if base ≠ [] && (path = base || (trimmed ++ ['/']).isPrefixOf path) then path.drop trimmed.length else path

/-- The address without its first segment if that is one of the locales. -/
def dropLocale (locales : List String) (path : List Char) : List Char :=
  let inner := path.dropWhile (· = '/')
  match Text.cutAt? '/' inner with
  | some (segment, rest) =>
    if locales.contains (String.ofList segment) then '/' :: rest else if path = ['/'] then [] else path
  | none => if locales.contains (String.ofList inner) then [] else if path = ['/'] then [] else path

/-- The address without the base and without a locale. -/
def strip (path : String) (locales : List String) (base : Option String) : String :=
  String.ofList (dropLocale locales (below ((base.map String.toList).getD []) path.toList))

/-- The address of the same page in another locale, without the base and with the query. -/
def relocate (path locale : String) (locales : List String) (base : Option String) (query : Option Query) : String :=
  let address := "/" ++ locale ++ strip path locales base
  match (query.map Query.toText).getD [] with
  | [] => address
  | q => address ++ "?" ++ String.ofList q

end Address

end Phrasebook
