import Phrasebook.Contract

/-!
# Catalogs

The catalog of a phrase tree is what a caller needs to know of it: its phrases with their contracts, its scopes, and
what was found odd.

* `Catalog.ofTable` makes the catalog of a phrase tree, or names the first thing that keeps it from being one.
* `Catalog.contract` looks a contract up, and `Catalog.keysIn` lists the phrases of a scope.
-/

namespace Phrasebook

/-- How a phrase tree is analysed. -/
structure Options where
  /-- how deep tables may be nested -/
  maxDepth : Int := 10
  /-- how many characters a text may have -/
  maxLength : Int := 65536
  /-- whether findings are logged -/
  verbose : Bool := false
  deriving DecidableEq, Repr

/-- The findings that are logged. -/
def Options.logged (options : Options) (findings : List Finding) : List Finding :=
  if options.verbose then findings else []

/-- The phrases of a tree, in order, with their contracts. -/
structure Catalog where
  entries : List Entry
  keys : List String
  scopes : List String
  families : Ordered String Plural.Variants
  contracts : Ordered String Contract
  findings : List Finding

namespace Catalog

/-- The contract of a phrase, given by its key and scope. -/
def contract (c : Catalog) (key : String) (scope : Option String) : Except Fault Contract :=
  let path := Path.resolve key scope
  match c.contracts.get? path with
  | some contract => .ok contract
  | none => .error (.unknownKey path)

/-- Whether a phrase has plural variants. -/
def isPlural (c : Catalog) (key : String) (scope : Option String) : Bool := c.families.has (Path.resolve key scope)

/-- Whether a path is a phrase. -/
def has (c : Catalog) (key : String) : Bool := c.contracts.has key

/-- The keys of the phrases in a scope, relative to it. -/
def keysIn (c : Catalog) (scope : Option String) : List String := c.keys.filterMap (Path.relative? · scope)

/-- The catalog of a phrase tree. -/
def ofTable (options : Options) (tree : Table) : Audit Catalog :=
  let audit : Audit Catalog := do
    let entries ← Audit.ofExcept (tree.leaves options.maxDepth)
    let grouping ← Plural.Grouping.ofEntries entries
    let contracts ← Contract.ofGrouping options.maxLength grouping
    return { entries
             keys := grouping.keys
             scopes := Path.scopes (entries.map Entry.path)
             families := grouping.families
             contracts
             findings := [] }
  { audit with outcome := audit.outcome.map fun catalog => { catalog with findings := audit.findings } }

end Catalog

end Phrasebook
