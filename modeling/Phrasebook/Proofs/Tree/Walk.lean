import Phrasebook.Proofs.Tree.Rows

/-!
# A walk through a tree

A walk through a tree enters a table and then goes through its items, to the key of an item before its value, and
through all of the value before the next item.

* `Value.visits` lists the places that a walk comes to, and `Visit.fault?` says what is wrong at one.
* `Table.WellFormed`: nothing is wrong anywhere. It is the same as to fit (`Table.wellFormed_iff`).
* `Table.faultOf_leaves`: what keeps a tree from having leaves is wrong at the first place where anything is.
-/

namespace Phrasebook

/-! ## The first fault -/

/-- At some places, each of which may have a fault, a fault is that of the first place that has one. -/
def FirstFault {α : Type} (faultAt : α → Option Fault) (places : List α) (fault : Fault) : Prop :=
  ∃ before place after, places = before ++ place :: after ∧ faultAt place = some fault ∧
    ∀ earlier ∈ before, faultAt earlier = none

theorem firstFault_iff {α : Type} {faultAt : α → Option Fault} {places : List α} {fault : Fault} :
    FirstFault faultAt places fault ↔ places.findSome? faultAt = some fault := List.findSome?_eq_some_iff.symm

/-! ## The places of a walk -/

/-- A place that a walk through a tree comes to. -/
inductive Visit where
  /-- a table below some keys is entered -/
  | table (above : List String)
  /-- a key of the table below some keys -/
  | key (above : List String) (key : Value)
  /-- a value below some keys that is no table -/
  | leaf (above : List String) (value : Value)

/-- Nothing is wrong at a place: a table lies at a level within the limit, that of the whole tree being the first, a key
is a text that is not empty and has no dot, and a value that is no table may be a phrase. -/
def Visit.Allowed (limit : Int) : Visit → Prop
  | table above => above.length + 1 ≤ limit
  | key _ k => k.isKey = true
  | leaf _ v => v.isLeaf = true

/-- What is wrong at a place, as it is told. -/
def Visit.fault? (limit : Int) : Visit → Option Fault
  | table above => if limit < above.length + 1 then some (Fault.tooDeep (Path.join above) limit).told else none
  | key above k =>
    if k.isKey then none else some (Fault.badKey k (if above.isEmpty then "<root>" else Path.join above)).told
  | leaf above v => if v.isLeaf then none else some (.badValue v.typeName (Path.join above))

theorem Visit.fault?_eq_none_iff {limit : Int} {visit : Visit} : visit.fault? limit = none ↔ visit.Allowed limit := by
  cases visit <;> simp [fault?, Allowed]

mutual

/-- The places that a walk through a value below some keys comes to. -/
def Value.visits (above : List String) : Value → List Visit
  | .table items => .table above :: Table.visits above items
  | v => [.leaf above v]

/-- The places that a walk through the items of a table below some keys comes to. -/
def Table.visits (above : List String) : List (Value × Value) → List Visit
  | [] => []
  | (k, v) :: items => .key above k :: (v.visits (above ++ [k.keyText]) ++ Table.visits above items)

end

/-- Nothing is wrong anywhere in a tree. -/
def Table.WellFormed (limit : Int) (tree : Table) : Prop :=
  ∀ visit ∈ (Value.table tree).visits [], visit.Allowed limit

/-! ## Faults on the walk -/

mutual

/-- What keeps a value from having leaves is the first fault on a walk through it. -/
theorem Value.faultOf_leavesBelow (limit : Int) : ∀ (v : Value) (above : List String),
    faultOf (v.leavesBelow limit above) = (v.visits above).findSome? (Visit.fault? limit) := by
  intro v above
  cases v with
  | table items =>
    rw [Value.leavesBelow, Value.visits, List.findSome?_cons, Visit.fault?]
    split
    · rfl
    · exact Table.faultOf_leavesBelow limit items above
  | _ => simp [Value.leavesBelow, Value.visits, Visit.fault?, Value.isLeaf]

/-- What keeps the items of a table from having leaves is the first fault on a walk through them. -/
theorem Table.faultOf_leavesBelow (limit : Int) : ∀ (items : List (Value × Value)) (above : List String),
    faultOf (Table.leavesBelow limit above items) = (Table.visits above items).findSome? (Visit.fault? limit) := by
  intro items above
  match items with
  | [] => rfl
  | (k, v) :: items =>
    rw [Table.visits, List.findSome?_cons, Visit.fault?]
    by_cases hk : k.isKey = true
    · obtain ⟨key, rfl, hkey⟩ := Value.isKey_eq_true_iff.1 hk
      have hrest : ∀ here : List Entry, faultOf (Table.leavesBelow limit above items >>= fun rest =>
          pure (here ++ rest)) = faultOf (Table.leavesBelow limit above items) :=
        fun here => faultOf_bind_of_answers _ fun _ _ => rfl
      rw [if_pos hk, Table.leavesBelow, if_pos hkey, faultOf_bind _ fun here _ => hrest here, List.findSome?_append,
        Value.keyText_text, Value.faultOf_leavesBelow limit v, Table.faultOf_leavesBelow limit items]
    · rw [if_neg hk]
      cases k with
      | text key =>
        have hkey : ¬ Path.isKey key = true := hk
        rw [Table.leavesBelow, if_neg hkey]
        rfl
      | _ => rfl

end

namespace Table

variable {limit : Int} {tree : Table}

/-- **What keeps a tree from having leaves is the first fault on a walk through it.** -/
theorem faultOf_leaves (limit : Int) (tree : Table) :
    faultOf (tree.leaves limit) = ((Value.table tree).visits []).findSome? (Visit.fault? limit) :=
  Value.faultOf_leavesBelow limit (.table tree) []

/-- A tree is well-formed exactly if it has leaves. -/
theorem wellFormed_iff_exists_leaves : tree.WellFormed limit ↔ ∃ entries, tree.leaves limit = .ok entries := by
  rw [← faultOf_eq_none_iff, faultOf_leaves, List.findSome?_eq_none_iff, WellFormed]
  simp only [Visit.fault?_eq_none_iff]

/-- A tree is well-formed exactly if it is a phrase tree within the limit. -/
theorem wellFormed_iff : tree.WellFormed limit ↔ 1 ≤ limit ∧ fits limit tree = true := by
  rw [wellFormed_iff_exists_leaves]
  simp only [leaves_eq_ok_iff]
  exact ⟨fun ⟨_, h, _⟩ => h, fun h => ⟨_, h, rfl⟩⟩

/-- The leaves of a well-formed tree are its rows. -/
theorem leaves_of_wellFormed (h : tree.WellFormed limit) :
    tree.leaves limit = .ok ((rows tree).map (Entry.ofRow [])) :=
  leaves_eq_ok_iff.2 ⟨wellFormed_iff.1 h, rfl⟩

end Table

end Phrasebook
