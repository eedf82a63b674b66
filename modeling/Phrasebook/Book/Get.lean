import Phrasebook.Book.Basic

/-!
# Asking a phrase book

* `Book.write` writes the text of a call: the call has to supply what the contract of the phrase asks for, and the count
  selects a plural variant.
* `Book.get` answers a call from memory or by writing, and remembers what it has written. A call that cannot be answered
  is given its key back, with a notice; an infinite count is the one thing that it does not get over.
-/

namespace Phrasebook

/-- Something to log. -/
inductive Notice where
  | finding (finding : Finding)
  /-- the phrase at a key could not be written -/
  | untranslated (key : String) (fault : Fault)

/-- The text of a notice, where `describe` tells how faults are described. -/
def Notice.text (describe : Fault → String) : Notice → String
  | finding f => f.summary
  | untranslated key fault => "Error: the key '" ++ key ++ "' can not be translated - " ++ describe fault

/-- An answer and what is to be logged. -/
structure Reply (α : Type) where
  notices : List Notice := []
  outcome : Except Fault α

namespace Book

/-- The variants that a count may select, best first. -/
def candidates (repository : Plural.Repository) (locale : String) (count : Value) :
    Except Fault (List Plural.Category) := do
  let category ← repository.category count locale
  return (if count.agrees (.int 0) then [.zero] else []) ++ [category, .other]

/-- The fault that no variant of a phrase fits a count. -/
def unfit (path : String) (count : Value) (locale : String) : Fault := (Fault.noVariant path count locale).told

/-- The path of the variant of a phrase that a count selects among the texts of a locale. -/
def variantIn (repository : Plural.Repository) (texts : Ordered String Value) (path locale : String) (count : Value) :
    Except Fault String := do
  let categories ← candidates repository locale count
  match categories.find? fun category => texts.has (Plural.variantPath path category) with
  | some category => return Plural.variantPath path category
  | none => throw (unfit path count locale)

/-- Writes the text of a call from the texts of its locale, under a catalog. -/
def write (repository : Plural.Repository) (catalog : Catalog) (texts : Ordered String Value) (call : Call) :
    Except Fault String := do
  let path := Path.resolve call.key call.scope
  let contract ← catalog.contract path none
  let missing := contract.missing call.values
  if !missing.isEmpty then throw (.missing path missing)
  let path ← if contract.isPlural then
      variantIn repository texts path call.locale ((call.values.get? (.text countName)).getD .null)
    else pure path
  match texts.get? path with
  | some value => Template.fill call.values value
  | none => throw (.noText path call.locale)

/-- The call with its locale filled in; an empty locale is none. -/
def callOf (b : Book) (key : String) (locale : Option String) (values : Table) (scope : Option String) : Call :=
  { key, scope, values
    locale := match locale with
      | some locale => if locale = "" then b.defaultLocale else locale
      | none => b.defaultLocale }

/-- Whether a fault is not got over. -/
def escapes : Fault → Bool
  | .infiniteCount | .unforeseen _ => true
  | _ => false

/-- The reply to a call that cannot be answered. -/
def refuse (call : Call) (notices : List Notice) (fault : Fault) : Reply String :=
  if escapes fault then { notices, outcome := .error fault }
  else { notices := notices ++ [.untranslated call.key fault], outcome := .ok call.key }

/-- The notices of findings. -/
def noticesOf (b : Book) (findings : List Finding) : List Notice := (b.shelf.options.logged findings).map .finding

/-- Answers a call. -/
def answer (b : Book) (call : Call) : Book × Reply String :=
  match call.unhashable? with
  | some typeName => (b, refuse call [] (.unhashable typeName))
  | none =>
    match b.memo.find? call.same with
    | some text => (b, { outcome := .ok text })
    | none =>
      match b.editions.get? call.locale with
      | none => (b, refuse call [] (.unknownLocale call.locale))
      | some edition =>
        let (b, audit) := b.catalog
        let notices := b.noticesOf audit.findings
        match audit.outcome.bind fun issue =>
            write b.repository issue.catalog edition.texts call with
        | .ok text => ({ b with memo := b.memo.insert call text }, { notices, outcome := .ok text })
        | .error fault => (b, refuse call notices fault)

/-- The text of a phrase in a locale, or in the default one. -/
def get (b : Book) (key : String) (locale : Option String) (values : Table) (scope : Option String) :
    Book × Reply String :=
  b.answer (b.callOf key locale values scope)

end Book

end Phrasebook
