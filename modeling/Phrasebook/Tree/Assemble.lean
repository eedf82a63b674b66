import Phrasebook.Tree.Leaves

/-!
# Assembling a phrase tree

* `Table.plant` puts a value at the end of a row of keys and makes the tables on the way there.
* `Table.ofEntries` rebuilds a phrase tree from its leaves. It fails where a leaf lies on the way to another one.
-/

namespace Phrasebook.Table

/-- Puts the value of an entry at a row of keys. -/
def plant (entry : Entry) : List String → Table → Except Fault Table
  | [], items => .ok items
  | [key], items => .ok (items.set (.text key) entry.value)
  | key :: next :: keys, items =>
    match items.get? (.text key) with
    | none => do
      let inner ← plant entry (next :: keys) []
      return items.set (.text key) (.table inner)
    | some (.table inner) => do
      let inner ← plant entry (next :: keys) inner
      return items.set (.text key) (.table inner)
    | some _ => .error (.badKey (.text key) entry.path)

/-- The phrase tree with the given leaves, planted one after the other. -/
def ofEntries (entries : List Entry) : Except Fault Table :=
  entries.foldlM (fun items entry => items.plant entry (Path.segments entry.path)) []

end Phrasebook.Table
