import Phrasebook.Fault
import Phrasebook.Path

/-!
# The leaves of a phrase tree

A phrase tree is a table whose keys are texts without dots and whose values are leaves or phrase trees.

* `Table.leaves` lists the leaves with their paths, depth first in the order of the items, or names the first place
  where a table is not a phrase tree or lies too deep.
-/

namespace Phrasebook

/-- A leaf of a phrase tree and its path. -/
structure Entry where
  path : String
  value : Value

mutual

/-- The leaves of a value that hangs below the keys `trail`. -/
def Value.leavesBelow (limit : Int) (trail : List String) : Value → Except Fault (List Entry)
  | .table items =>
    if limit < trail.length + 1 then .error (Fault.tooDeep (Path.join trail) limit).told
    else Table.leavesBelow limit trail items
  | v => if v.isLeaf then .ok [⟨Path.join trail, v⟩] else .error (.badValue v.typeName (Path.join trail))

/-- The leaves of the items of a table that hangs below the keys `trail`. -/
def Table.leavesBelow (limit : Int) (trail : List String) : List (Value × Value) → Except Fault (List Entry)
  | [] => .ok []
  | (k, v) :: items =>
    match k with
    | .text key =>
      if Path.isKey key then do
        let here ← Value.leavesBelow limit (trail ++ [key]) v
        let rest ← Table.leavesBelow limit trail items
        return here ++ rest
      else .error (Fault.badKey k (if trail.isEmpty then "<root>" else Path.join trail)).told
    | k => .error (Fault.badKey k (if trail.isEmpty then "<root>" else Path.join trail)).told

end

/-- The leaves of a phrase tree whose tables are nested at most `limit` deep. -/
def Table.leaves (limit : Int) (items : Table) : Except Fault (List Entry) := Value.leavesBelow limit [] (.table items)

end Phrasebook
