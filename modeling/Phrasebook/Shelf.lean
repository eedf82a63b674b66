import Phrasebook.Catalog
import Phrasebook.Fifo

/-!
# Shelves

A shelf keeps the catalogs that have been made lately, so that asking for the catalog of the same thing twice gives the
very same catalog. Catalogs are numbered in the order in which they are made, and are the same if their numbers are.

* `Shelf.consult` takes a catalog from the shelf, or makes it and puts it there. A tree without a catalog changes
  nothing.
-/

namespace Phrasebook

/-- A catalog and its number. -/
structure Issue where
  number : Nat
  catalog : Catalog

/-- The catalogs of things named by `κ`. -/
structure Shelf (κ : Type) where
  options : Options
  held : Fifo κ Issue
  /-- how many catalogs have been made -/
  made : Nat := 0

namespace Shelf

variable {κ : Type} [DecidableEq κ]

/-- The catalog of a thing, of which `tree` is the phrase tree at present. -/
def consult (s : Shelf κ) (key : κ) (tree : Table) : Shelf κ × Audit Issue :=
  match s.held.find? (· = key) with
  | some issue => (s, pure issue)
  | none =>
    let audit := Catalog.ofTable s.options tree
    match audit.outcome with
    | .error fault => (s, ⟨audit.findings, .error fault⟩)
    | .ok catalog =>
      let issue : Issue := ⟨s.made, catalog⟩
      ({ s with held := s.held.insert key issue, made := s.made + 1 }, ⟨audit.findings, .ok issue⟩)

/-- The shelf without its catalogs. -/
def clear (s : Shelf κ) : Shelf κ := { s with held := s.held.clear }

end Shelf

end Phrasebook
