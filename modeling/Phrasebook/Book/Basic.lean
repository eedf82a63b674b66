import Phrasebook.Plural.Locale
import Phrasebook.Shelf
import Phrasebook.Tree.Overlay

/-!
# Phrase books

A phrase book holds the phrase trees of some locales and remembers the texts that it has written.

* `Book.load` lays a phrase tree over that of its locale, or over that of the default locale if the locale is new. A
  tree that turns out not to be a phrase tree changes nothing.
* `Book.catalog` is the catalog that calls are held to: that of the default locale, or else of the first one.
-/

namespace Phrasebook

/-- The phrase tree of a locale and its texts by path. -/
structure Edition where
  tree : Table
  texts : Ordered String Value

/-- What a remembered text depends on: the phrase, the locale, the scope, and the values of its parameters. -/
structure Call where
  key : String
  locale : String
  scope : Option String
  values : Table

namespace Call

/-- Whether two lists of values are equal item by item, and the values are of equal kinds. -/
def sameValues : Table → Table → Bool
  | [], [] => true
  | (k, v) :: items, (k', v') :: items' =>
    k.agrees k' && v.typeName = v'.typeName && v.agrees v' && sameValues items items'
  | _, _ => false

/-- Whether two calls are answered by the same text. -/
def same (a b : Call) : Bool :=
  a.key = b.key && a.locale = b.locale && a.scope = b.scope && sameValues a.values b.values

/-- The kind of the first value that keeps a call from being remembered. -/
def unhashable? (c : Call) : Option String :=
  c.values.findSome? fun
    | (_, .list vs) => some (Value.list vs).typeName
    | (_, .table items) => some (Value.table items).typeName
    | _ => none

end Call

/-- The phrase trees of some locales, and what has been made of them. -/
structure Book where
  /-- the plural rules, which nothing changes -/
  repository : Plural.Repository := .standard
  defaultLocale : String
  editions : Ordered String Edition := []
  memo : Fifo Call String
  shelf : Shelf String

namespace Book

/-- How many catalogs a book keeps. -/
def shelfCapacity : Nat := 128

/-- An empty book that remembers a number of texts. -/
def ofCapacity (defaultLocale : String) (options : Options) (capacity : Int)
    (repository : Plural.Repository := .standard) : Except Fault Book :=
  (Fifo.ofCapacity capacity).map fun memo =>
    { repository, defaultLocale, memo, shelf := { options, held := Fifo.empty shelfCapacity (by decide) } }

/-- The locales of a book in the order in which they first came. -/
def locales (b : Book) : List String := Ordered.keys b.editions

/-- The phrase tree that a new one for a locale is laid over. -/
def base (b : Book) (locale : String) : Table :=
  match b.editions.get? locale with
  | some edition => edition.tree
  | none => match b.editions.get? b.defaultLocale with
    | some edition => edition.tree
    | none => []

/-- Lays a phrase tree over that of a locale, and forgets the texts of the locale and all catalogs. -/
def load (b : Book) (locale : String) (tree : Table) : Except Fault Book := do
  let tree := Table.overlay (b.base locale) tree
  let entries ← Table.leaves b.shelf.options.maxDepth tree
  let edition : Edition := { tree, texts := entries.map fun entry => (entry.path, entry.value) }
  return { b with editions := b.editions.put locale edition
                  shelf := b.shelf.clear
                  memo := b.memo.keep fun call => call.locale ≠ locale }

/-- Loads the phrase trees of some locales one after the other, up to the first that cannot be loaded. -/
def loadAll (b : Book) : List (String × Table) → Book × Except Fault Unit
  | [] => (b, .ok ())
  | (locale, tree) :: trees =>
    match b.load locale tree with
    | .ok b => loadAll b trees
    | .error fault => (b, .error fault)

/-- The book with another default locale. -/
def withDefault (b : Book) (locale : String) : Book := { b with defaultLocale := locale }

/-- The locale whose catalog calls are held to, and its phrase tree. -/
def representative? (b : Book) : Option (String × Table) :=
  match b.editions.get? b.defaultLocale with
  | some edition => some (b.defaultLocale, edition.tree)
  | none => b.editions.head?.map fun (locale, edition) => (locale, edition.tree)

/-- The catalog that calls are held to. -/
def catalog (b : Book) : Book × Audit Issue :=
  match b.representative? with
  | none => (b, .ofExcept (.error .noLocales))
  | some (locale, tree) =>
    let (shelf, audit) := b.shelf.consult locale tree
    ({ b with shelf }, audit)

end Book

end Phrasebook
