import Phrasebook.Shelf

/-!
# Desks

Phrase trees lie on a desk as documents, and slots refer to them. Two slots may refer to the same document, and a
document may be changed. The catalog of a document stays on the shelf of the desk even if the document changes.

* `Desk.run` carries out one step, and `Desk.after` is what some steps lead to.
-/

namespace Phrasebook

/-- Documents, the slots that refer to them by number, and the shelf with their catalogs. -/
structure Desk where
  documents : List Table := []
  slots : Ordered String Nat := []
  shelf : Shelf Nat

namespace Desk

/-- What can be done at a desk. -/
inductive Step where
  /-- puts a new document on the desk -/
  | define (slot : String) (tree : Table)
  /-- lets a slot refer to the document of another one -/
  | share (slot source : String)
  /-- changes a document -/
  | edit (slot : String) (change : Table → Table)
  /-- asks for the catalog of a document -/
  | consult (slot : String)
  /-- clears the shelf -/
  | clear
  /-- counts the catalogs on the shelf -/
  | count

/-- Changes an item of a document. -/
def Step.change (slot : String) (key value : Value) : Step := .edit slot fun tree => tree.set key value

/-- What a step answers. -/
inductive Reply where
  | done
  | issue (issue : Issue) (held : Nat)
  | held (count : Nat)

/-- An empty desk whose shelf has room for a number of catalogs. -/
def ofCapacity (options : Options) (capacity : Int) : Except Fault Desk :=
  (Fifo.ofCapacity capacity).map fun held => { shelf := { options, held } }

/-- The document that a slot refers to, with its number. -/
def document? (d : Desk) (slot : String) : Option (Nat × Table) :=
  (d.slots.get? slot).bind fun n => d.documents[n]?.map fun tree => (n, tree)

/-- Carries out a step. With a slot that refers to nothing, nothing is done. -/
def run (d : Desk) : Step → Desk × Audit Reply
  | .define slot tree =>
    ({ d with documents := d.documents ++ [tree], slots := d.slots.put slot d.documents.length }, pure .done)
  | .share slot source =>
    match d.document? source with
    | some (n, _) => ({ d with slots := d.slots.put slot n }, pure .done)
    | none => (d, pure .done)
  | .edit slot change =>
    match d.document? slot with
    | some (n, tree) => ({ d with documents := d.documents.set n (change tree) }, pure .done)
    | none => (d, pure .done)
  | .consult slot =>
    match d.document? slot with
    | some (n, tree) =>
      let (shelf, audit) := d.shelf.consult n tree
      ({ d with shelf }, audit.andThen fun issue => pure (.issue issue shelf.held.size))
    | none => (d, pure .done)
  | .clear =>
    let shelf := d.shelf.clear
    ({ d with shelf }, pure (.held shelf.held.size))
  | .count => (d, pure (.held d.shelf.held.size))

/-- The desk that some steps lead to. -/
def after (d : Desk) (steps : List Step) : Desk := steps.foldl (fun d step => (d.run step).1) d

end Desk

end Phrasebook
