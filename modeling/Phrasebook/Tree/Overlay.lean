import Phrasebook.Value.Basic

/-!
# Overlaying a phrase tree

* `Table.overlay` puts the items of one table over those of another: where both have a table they are overlaid in turn,
  elsewhere the upper one wins. Keys of the lower table keep their places, and new ones follow.
-/

namespace Phrasebook

mutual

/-- The value that lies over what was there before. -/
def Value.over (below : Option Value) : Value → Value
  | .table items =>
    match below with
    | some (.table base) => .table (Table.overlay base items)
    | _ => .table items
  | v => v

/-- The first table with the items of the second laid over it. -/
def Table.overlay (base : Table) : List (Value × Value) → Table
  | [] => base
  | (k, v) :: items => Table.overlay (Table.set k (Value.over (Table.get? base k) v) base) items

end

end Phrasebook
