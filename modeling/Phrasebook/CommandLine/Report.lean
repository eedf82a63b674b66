import Phrasebook.Catalog
import Phrasebook.Document.JsonText

/-!
# Reports

A report on a phrase tree is its catalog, written as a JSON document or as a table.

* `Catalog.toValue` is the content of the document.
* `Catalog.toLines` are the lines of the table.
-/

namespace Phrasebook

/-- A list of texts as a value. -/
def Value.ofTexts (texts : List String) : Value := .list (texts.map .text)

/-- The items of a table given by their names. -/
def Value.ofFields (fields : List (String × Value)) : Value := .table (fields.map fun (name, v) => (.text name, v))

/-- The count of a plural phrase as a value. -/
def CountField.toValue (c : CountField) : Value :=
  .ofFields [("type", .text "number"), ("suffixes", .ofTexts c.suffixes), ("hints", .list (c.hints.map .int))]

/-- The contract of a phrase as a value. -/
def Contract.toValue (c : Contract) : Value :=
  .ofFields ([("plural", .bool c.isPlural), ("params", .ofTexts c.params)] ++
    (c.count.map fun count => (countName, count.toValue)).toList)

/-- A finding as a value. -/
def Finding.toValue (f : Finding) : Value :=
  .ofFields [("kind", .text f.kind), ("path", .text f.path), ("message", .text f.message)]

namespace Catalog

/-- The catalog as a value. -/
def toValue (c : Catalog) : Value :=
  .ofFields [("keys", .ofFields (c.contracts.map fun (key, contract) => (key, contract.toValue))),
    ("scopes", .ofTexts c.scopes), ("diagnostics", .list (c.findings.map Finding.toValue))]

/-- A text with spaces behind it up to a width. -/
def pad (width : Nat) (s : String) : String := s ++ String.ofList (List.replicate (width - s.length) ' ')

/-- The line of a phrase: its key, its kind and its fields. -/
def phraseLine (key : String) (contract : Contract) : String :=
  let fields := if contract.fields.isEmpty then "-" else ", ".intercalate contract.fields
  pad 40 key ++ " " ++ pad 7 (if contract.isPlural then "plural" else "plain") ++ " " ++ fields

/-- The line of a finding. -/
def findingLine (f : Finding) : String := "  [" ++ f.kind ++ "] " ++ f.path ++ ": " ++ f.message

/-- The lines of the table. -/
def toLines (c : Catalog) : List String :=
  c.contracts.map (fun (key, contract) => phraseLine key contract) ++
    ["", s!"{c.keys.length} keys, {c.scopes.length} scopes, {c.families.length} plural groups"] ++
    c.findings.map findingLine

end Catalog

end Phrasebook
