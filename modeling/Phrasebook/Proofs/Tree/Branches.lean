import Phrasebook.Proofs.Scope.Prefix
import Phrasebook.Proofs.Tree.Rows

/-!
# The tables in a phrase tree

The scopes of a tree are made of the paths of its leaves. They are also the paths of its tables, as far as these have a
leaf somewhere in them.

* `Table.tables` lists the tables in a tree, each before those in it, and `Table.branches` the paths of those that have
  a leaf.
* `Table.scopes_paths`: where no key comes twice, both orders are the same.
-/

namespace Phrasebook

/-! ## Tables and their paths -/

mutual

/-- The tables of a value, each with the keys that lead to it, a table before those in it. -/
def Value.tables : Value → List (List String × Table)
  | .table items => ([], items) :: Table.tables items
  | _ => []

/-- The tables in the items of a table, each with the keys that lead to it, in the order of the items. -/
def Table.tables : List (Value × Value) → List (List String × Table)
  | [] => []
  | (k, v) :: items => v.tables.map (fun t => (k.keyText :: t.1, t.2)) ++ Table.tables items

end

/-- The paths of the tables in a tree that have a leaf, in it or in a table in it. -/
def Table.branches (tree : Table) : List String :=
  ((tables tree).filter fun t => holdsLeaf t.2).map fun t => Path.join t.1

/-- The paths of the leaves of a tree. -/
def Table.paths (tree : Table) : List String := (rows tree).map fun row => Path.join row.1

/-- A value of a phrase tree is a leaf or a phrase tree. -/
theorem Value.isLeaf_or_table_of_fits {depth : Int} (v : Value) (h : v.fits depth = true) :
    v.isLeaf = true ∨ ∃ items, v = .table items ∧ Table.fits depth items = true := by
  cases v with
  | table items =>
    rw [Value.fits, Bool.and_eq_true] at h
    exact Or.inr ⟨items, rfl, h.2⟩
  | _ => exact Or.inl h

mutual

/-- A value without a leaf has no table with a leaf. -/
theorem Value.holdsLeaf_of_mem_tables : ∀ (v : Value), v.holdsLeaf = false → ∀ t ∈ v.tables,
    Table.holdsLeaf t.2 = false := by
  intro v hv t ht
  cases v with
  | table items =>
    rw [Value.holdsLeaf] at hv
    rw [Value.tables] at ht
    rcases List.mem_cons.1 ht with rfl | ht
    · exact hv
    · exact Table.holdsLeaf_of_mem_tables items hv t ht
  | _ => cases ht

/-- Items without a leaf have no table with a leaf. -/
theorem Table.holdsLeaf_of_mem_tables : ∀ (items : List (Value × Value)), Table.holdsLeaf items = false →
    ∀ t ∈ Table.tables items, Table.holdsLeaf t.2 = false := by
  intro items hi t ht
  match items with
  | [] => cases ht
  | (k, v) :: items =>
    rw [Table.holdsLeaf, Bool.or_eq_false_iff] at hi
    rw [Table.tables] at ht
    rcases List.mem_append.1 ht with ht | ht
    · obtain ⟨inner, hinner, rfl⟩ := List.mem_map.1 ht
      exact v.holdsLeaf_of_mem_tables hi.1 inner hinner
    · exact Table.holdsLeaf_of_mem_tables items hi.2 t ht

end

namespace Table

variable {key : String} {items inner : Table}

/-- A table in a tree is not at its root. -/
theorem ne_nil_of_mem_tables {t : List String × Table} (ht : t ∈ tables items) : t.1 ≠ [] := by
  induction items with
  | nil => cases ht
  | cons item items ih =>
    obtain ⟨k, v⟩ := item
    rw [tables] at ht
    rcases List.mem_append.1 ht with ht | ht
    · obtain ⟨inner, -, rfl⟩ := List.mem_map.1 ht
      exact List.cons_ne_nil _ _
    · exact ih ht

theorem paths_eq_nil_iff : paths items = [] ↔ holdsLeaf items = false := by
  rw [paths, List.map_eq_nil_iff, rows_eq_nil_iff]

/-- The paths of the tables at a key: of the table there, if it has a leaf, and of the tables in it. -/
def branchesAt (key : String) (inner : Table) : List String :=
  if holdsLeaf inner then key :: (branches inner).map (Path.under key) else []

theorem branches_cons_table :
    branches ((.text key, .table inner) :: items) = branchesAt key inner ++ branches items := by
  rw [branches, tables, List.filter_append, List.map_append, List.filter_map, List.map_map, branchesAt]
  congr 1
  split
  · next hleaf =>
    rw [Value.tables, List.filter_cons_of_pos (by exact hleaf), List.map_cons, branches, List.map_map]
    refine congrArg₂ _ (Path.join_singleton key) (List.map_congr_left fun t ht => ?_)
    exact Path.join_cons key (ne_nil_of_mem_tables (List.mem_of_mem_filter ht))
  · next hnone =>
    have hempty := Value.holdsLeaf_of_mem_tables (.table inner) (Bool.not_eq_true _ ▸ hnone)
    rw [List.map_eq_nil_iff, List.filter_eq_nil_iff]
    intro t ht
    simp [hempty t ht]

theorem branches_cons_leaf {v : Value} (h : v.isLeaf = true) : branches ((.text key, v) :: items) = branches items := by
  rw [branches, tables]
  cases v <;> first | rfl | cases h

theorem paths_cons_leaf {v : Value} (h : v.isLeaf = true) : paths ((.text key, v) :: items) = key :: paths items := by
  have hjoin := Path.join_singleton key
  rw [paths, rows]
  cases v <;> first | exact congrArg (· :: paths items) hjoin | cases h

theorem paths_cons_table (h : ∀ row ∈ rows inner, row.1 ≠ []) :
    paths ((.text key, .table inner) :: items) = (paths inner).map (Path.under key) ++ paths items := by
  rw [paths, rows, List.map_append, Value.rows, List.map_map, paths, List.map_map]
  congr 1
  exact List.map_congr_left fun row hrow => Path.join_cons key (h row hrow)

end Table

/-! ## Where a path begins -/

namespace Path

variable {key : String}

/-- The first key of a path. -/
def first? (path : String) : Option String := (segments path).head?

theorem segments_of_isKey (h : isKey key = true) : segments key = [key] := by
  rw [segments, Text.fields_of_not_mem (isKey_iff.1 h).2]
  simp

theorem first?_of_isKey (h : isKey key = true) : first? key = some key := by
  rw [first?, segments_of_isKey h, List.head?]

theorem first?_under (h : isKey key = true) (path : String) : first? (under key path) = some key := by
  rw [first?, segments_under h, List.head?]

theorem ancestors_of_isKey (h : isKey key = true) : ancestors key = [] := by
  rw [ancestors, segments_of_isKey h]
  rfl

/-- Paths that have no scope in common have their scopes one after the other. -/
theorem scopes_append {paths paths' : List String} (h : (scopes paths).Disjoint (scopes paths')) :
    scopes (paths ++ paths') = scopes paths ++ scopes paths' := by
  have hnew : (paths'.flatMap ancestors).removeAll (paths.flatMap ancestors) = paths'.flatMap ancestors := by
    refine List.filter_eq_self.2 fun scope hscope => ?_
    simpa using fun hmem => h (List.mem_eraseDups.2 hmem) (List.mem_eraseDups.2 hscope)
  rw [scopes, List.flatMap_append, List.eraseDups_append, hnew]
  rfl

end Path

namespace Table

variable {key path : String} {items inner : Table} {depth : Int}

theorem first?_of_mem_branchesAt (hk : Path.isKey key = true) (h : path ∈ branchesAt key inner) :
    Path.first? path = some key := by
  unfold branchesAt at h
  split at h
  · rcases List.mem_cons.1 h with rfl | h
    · exact Path.first?_of_isKey hk
    · obtain ⟨below, -, rfl⟩ := List.mem_map.1 h
      exact Path.first?_under hk below
  · cases h

/-- The path of a table begins with the key of an item. -/
theorem exists_item_of_mem_branches (hf : fits depth items = true) (h : path ∈ branches items) :
    ∃ item ∈ items, ∃ key, item.1 = .text key ∧ Path.first? path = some key := by
  induction items with
  | nil => cases h
  | cons item items ih =>
    obtain ⟨k, v⟩ := item
    simp only [fits, Bool.and_eq_true] at hf
    obtain ⟨⟨hk, hv⟩, hi⟩ := hf
    obtain ⟨key, rfl, hkey⟩ := Value.isKey_eq_true_iff.1 hk
    have hrest : path ∈ branches items →
        ∃ item ∈ (.text key, v) :: items, ∃ key, item.1 = .text key ∧ Path.first? path = some key := by
      intro h
      obtain ⟨item, hitem, hbegins⟩ := ih hi h
      exact ⟨item, List.mem_cons_of_mem _ hitem, hbegins⟩
    rcases v.isLeaf_or_table_of_fits hv with hleaf | ⟨inner, rfl, -⟩
    · rw [branches_cons_leaf hleaf] at h
      exact hrest h
    · rw [branches_cons_table] at h
      rcases List.mem_append.1 h with h | h
      · exact ⟨_, List.mem_cons_self, key, rfl, first?_of_mem_branchesAt hkey h⟩
      · exact hrest h

/-- The tables at a key that does not come again have other paths than those behind it. -/
theorem disjoint_branches (hk : Path.isKey key = true)
    (hnew : (items.all fun item => !(Value.text key).agrees item.1) = true) (hf : fits depth items = true) :
    (branchesAt key inner).Disjoint (branches items) := by
  intro path hhere hrest
  obtain ⟨item, hitem, key', hkey', hfirst⟩ := exists_item_of_mem_branches hf hrest
  obtain rfl : key = key' := Option.some.inj ((first?_of_mem_branchesAt hk hhere).symm.trans hfirst)
  have hno := List.all_eq_true.1 hnew item hitem
  rw [hkey', Value.agrees_text, decide_eq_true rfl] at hno
  cases hno

end Table

/-! ## The scopes of a tree -/

mutual

/-- The scopes of a tree that is a value are the paths of its tables. -/
theorem Value.scopes_paths : ∀ (v : Value) {depth : Int}, v.isProper = true → v.fits depth = true →
    ∀ inner, v = .table inner → Path.scopes (Table.paths inner) = Table.branches inner := by
  intro v depth hp hf inner hv
  cases v with
  | table items =>
    obtain rfl : items = inner := Value.table.inj hv
    rw [Value.isProper] at hp
    rw [Value.fits, Bool.and_eq_true] at hf
    exact Table.scopes_paths items hp hf.2
  | _ => cases hv

/-- **The scopes of a tree are the paths of its tables** that have a leaf. -/
theorem Table.scopes_paths : ∀ (items : List (Value × Value)) {depth : Int}, Table.isProper items = true →
    Table.fits depth items = true → Path.scopes (Table.paths items) = Table.branches items := by
  intro items depth hp hf
  match items with
  | [] => rfl
  | (k, v) :: items =>
    rw [Table.isProper, Bool.and_eq_true, Bool.and_eq_true] at hp
    obtain ⟨⟨hnew, hv⟩, hi⟩ := hp
    simp only [Table.fits, Bool.and_eq_true] at hf
    obtain ⟨⟨hk, hfv⟩, hfi⟩ := hf
    obtain ⟨key, rfl, hkey⟩ := Value.isKey_eq_true_iff.1 hk
    have hinner := v.scopes_paths hv hfv
    have hrest : Path.scopes (Table.paths items) = Table.branches items := Table.scopes_paths items hi hfi
    rcases v.isLeaf_or_table_of_fits hfv with hleaf | ⟨inner, rfl, hfits⟩
    · rw [Table.paths_cons_leaf hleaf, Table.branches_cons_leaf hleaf, ← hrest, Path.scopes, List.flatMap_cons,
        Path.ancestors_of_isKey hkey, List.nil_append, Path.scopes]
    · have hhere : Path.scopes ((Table.paths inner).map (Path.under key)) = Table.branchesAt key inner := by
        unfold Table.branchesAt
        split
        · next hleaf =>
          rw [Path.scopes_map_under hkey (by simp [Table.paths_eq_nil_iff, hleaf]), hinner inner rfl]
        · next hnone =>
          rw [Table.paths_eq_nil_iff.2 (Bool.not_eq_true _ ▸ hnone)]
          rfl
      have hdisjoint : (Table.branchesAt key inner).Disjoint (Table.branches items) :=
        Table.disjoint_branches hkey hnew hfi
      rw [← hhere, ← hrest] at hdisjoint
      rw [Table.paths_cons_table fun row hrow => (Table.isKey_of_mem_rows inner hfits row hrow).1,
        Path.scopes_append hdisjoint, hhere, hrest, Table.branches_cons_table]

end

end Phrasebook
