import Phrasebook.Proofs.Tree.Paths

/-!
# Phrase trees as rows of keys

The leaves of a tree are its rows: the keys that lead to a leaf, and the leaf.

* `Table.leavesBelow_eq_ok_iff`: the leaves of a table are those of its rows, and there is a fault exactly if the table
  is not a phrase tree of the depth that is left (`Table.fits`).
* `Table.rows_eq_nil_iff`: there are no rows exactly if the tree has no leaf (`Table.holdsLeaf`).
* `Table.leaves_of_le`: the limit on the depth decides only whether there is a fault.
* `Table.mem_rows_iff`: where no key comes twice, a row leads to what is found along its keys (`Table.leafAt?`).
* `Value.leafAt?_append`: no leaf lies on the way to another one.
-/

namespace Phrasebook

/-! ## Phrase trees -/

/-- Whether a value can be the key of a phrase. -/
def Value.isKey : Value → Bool
  | .text key => Path.isKey key
  | _ => false

/-- The text of a key. -/
def Value.keyText : Value → String
  | .text key => key
  | _ => ""

mutual

/-- Whether a value is a leaf or a phrase tree whose tables are nested at most so deep. -/
def Value.fits : Int → Value → Bool
  | depth, .table items => decide (1 ≤ depth) && Table.fits depth items
  | _, v => v.isLeaf

/-- Whether the items of a phrase tree are keys with leaves and with phrase trees that fit below it. -/
def Table.fits : Int → List (Value × Value) → Bool
  | _, [] => true
  | depth, (k, v) :: items => k.isKey && v.fits (depth - 1) && Table.fits depth items

end

mutual

/-- The leaves of a value, each with the keys that lead to it. -/
def Value.rows : Value → List (List String × Value)
  | .table items => Table.rows items
  | v => [([], v)]

/-- The leaves of the items of a table, each with the keys that lead to it. -/
def Table.rows : List (Value × Value) → List (List String × Value)
  | [] => []
  | (k, v) :: items => v.rows.map (fun row => (k.keyText :: row.1, row.2)) ++ Table.rows items

end

mutual

/-- Whether a value is a leaf or holds one. -/
def Value.holdsLeaf : Value → Bool
  | .table items => Table.holdsLeaf items
  | _ => true

/-- Whether one of the values of a table is a leaf or holds one. -/
def Table.holdsLeaf : List (Value × Value) → Bool
  | [] => false
  | (_, v) :: items => v.holdsLeaf || Table.holdsLeaf items

end

mutual

/-- A value has rows exactly if it is a leaf or holds one. -/
theorem Value.rows_eq_nil_iff : ∀ v : Value, v.rows = [] ↔ v.holdsLeaf = false := by
  intro v
  cases v with
  | table items => rw [Value.rows, Value.holdsLeaf, Table.rows_eq_nil_iff items]
  | _ => simp [Value.rows, Value.holdsLeaf]

/-- A table has rows exactly if it holds a leaf. -/
theorem Table.rows_eq_nil_iff : ∀ items : List (Value × Value),
    Table.rows items = [] ↔ Table.holdsLeaf items = false := by
  intro items
  match items with
  | [] => simp [Table.rows, Table.holdsLeaf]
  | (k, v) :: items =>
    simp only [Table.rows, Table.holdsLeaf, List.append_eq_nil_iff, List.map_eq_nil_iff, Bool.or_eq_false_iff,
      v.rows_eq_nil_iff, Table.rows_eq_nil_iff items]

end

/-- The entry of a row below some keys. -/
def Entry.ofRow (trail : List String) (row : List String × Value) : Entry := ⟨Path.join (trail ++ row.1), row.2⟩

theorem Value.isKey_eq_true_iff {k : Value} : k.isKey = true ↔ ∃ key, k = .text key ∧ Path.isKey key = true := by
  cases k <;> simp [Value.isKey]

@[simp] theorem Value.keyText_text (key : String) : (Value.text key).keyText = key := rfl

/-- A row below one more key. -/
theorem Entry.map_ofRow_cons (trail : List String) (key : String) (rows : List (List String × Value)) :
    (rows.map fun row => (key :: row.1, row.2)).map (Entry.ofRow trail) = rows.map (Entry.ofRow (trail ++ [key])) := by
  simp [Entry.ofRow, Function.comp_def]

/-- A table is a phrase tree exactly if its keys are keys of phrases and its values fit below it. -/
theorem Table.fits_iff {depth : Int} {items : List (Value × Value)} :
    Table.fits depth items = true ↔ ∀ item ∈ items, item.1.isKey = true ∧ item.2.fits (depth - 1) = true := by
  induction items with
  | nil => simp [Table.fits]
  | cons item items ih =>
    obtain ⟨k, v⟩ := item
    simp only [Table.fits, Bool.and_eq_true, List.forall_mem_cons, ih]

mutual

/-- The leaves of a value are its rows if it fits, and there is a fault if it does not. -/
theorem Value.leavesBelow_eq_ok_iff {limit : Int} : ∀ (v : Value) {trail : List String} {entries : List Entry},
    v.leavesBelow limit trail = .ok entries ↔
      v.fits (limit - trail.length) = true ∧ entries = v.rows.map (Entry.ofRow trail) := by
  intro v trail entries
  cases v with
  | table items =>
    rw [Value.leavesBelow, Value.fits, Value.rows, Bool.and_eq_true, decide_eq_true_iff, and_assoc,
      ← Table.leavesBelow_eq_ok_iff items]
    by_cases h : limit < trail.length + 1
    · have hd : ¬ 1 ≤ limit - (trail.length : Int) := by omega
      simp [h, hd]
    · have hd : 1 ≤ limit - (trail.length : Int) := by omega
      simp [h, hd]
  | _ => simp [Value.leavesBelow, Value.fits, Value.rows, Value.isLeaf, Entry.ofRow, eq_comm]

/-- The leaves of some items are their rows if they fit, and there is a fault if they do not. -/
theorem Table.leavesBelow_eq_ok_iff {limit : Int} : ∀ (items : List (Value × Value)) {trail : List String}
    {entries : List Entry}, Table.leavesBelow limit trail items = .ok entries ↔
      Table.fits (limit - trail.length) items = true ∧ entries = (Table.rows items).map (Entry.ofRow trail) := by
  intro items trail entries
  match items with
  | [] => simp [Table.leavesBelow, Table.fits, Table.rows, eq_comm]
  | (k, v) :: items =>
    have hdepth : ∀ key : String, limit - ((trail ++ [key]).length : Int) = limit - trail.length - 1 := by
      intro key
      rw [List.length_append]
      simp
      omega
    constructor
    · intro h
      obtain ⟨key, here, rest, rfl, hk, hh, hr, rfl⟩ := Table.leavesBelow_cons_eq_ok h
      rw [Value.leavesBelow_eq_ok_iff v, hdepth] at hh
      rw [Table.leavesBelow_eq_ok_iff items] at hr
      obtain ⟨hv, rfl⟩ := hh
      obtain ⟨hi, rfl⟩ := hr
      refine ⟨?_, ?_⟩
      · simp [Table.fits, Value.isKey, hk, hv, hi]
      · rw [Table.rows, List.map_append, Value.keyText_text, Entry.map_ofRow_cons]
    · rintro ⟨h, rfl⟩
      simp only [Table.fits, Bool.and_eq_true] at h
      obtain ⟨⟨hk, hv⟩, hi⟩ := h
      obtain ⟨key, rfl, hkey⟩ := Value.isKey_eq_true_iff.1 hk
      have hhere : v.leavesBelow limit (trail ++ [key]) = .ok (v.rows.map (Entry.ofRow (trail ++ [key]))) := by
        rw [Value.leavesBelow_eq_ok_iff v, hdepth]
        exact ⟨hv, rfl⟩
      have hrest : Table.leavesBelow limit trail items = .ok ((Table.rows items).map (Entry.ofRow trail)) :=
        (Table.leavesBelow_eq_ok_iff items).2 ⟨hi, rfl⟩
      rw [Table.leavesBelow, if_pos hkey, hhere, hrest, Table.rows, List.map_append, Value.keyText_text,
        Entry.map_ofRow_cons]
      rfl

end

/-! ## The limit on the depth -/

mutual

/-- A value that fits also fits where more depth is left. -/
theorem Value.fits_of_le : ∀ (v : Value) {depth depth' : Int}, depth ≤ depth' → v.fits depth = true →
    v.fits depth' = true := by
  intro v depth depth' hle h
  cases v with
  | table items =>
    rw [Value.fits, Bool.and_eq_true, decide_eq_true_iff] at h ⊢
    exact ⟨by omega, Table.fits_of_le items hle h.2⟩
  | _ => exact h

/-- The items of a phrase tree also fit where more depth is left. -/
theorem Table.fits_of_le : ∀ (items : List (Value × Value)) {depth depth' : Int}, depth ≤ depth' →
    Table.fits depth items = true → Table.fits depth' items = true := by
  intro items depth depth' hle h
  match items with
  | [] => rfl
  | (k, v) :: items =>
    simp only [Table.fits, Bool.and_eq_true] at h ⊢
    obtain ⟨⟨hk, hv⟩, hi⟩ := h
    exact ⟨⟨hk, v.fits_of_le (by omega) hv⟩, Table.fits_of_le items hle hi⟩

end

namespace Table

/-- The leaves of a tree are its rows, and there is a fault exactly if it is not a phrase tree within the limit. -/
theorem leaves_eq_ok_iff {limit : Int} {tree : Table} {entries : List Entry} :
    tree.leaves limit = .ok entries ↔
      (1 ≤ limit ∧ fits limit tree = true) ∧ entries = (rows tree).map (Entry.ofRow []) := by
  rw [leaves, Value.leavesBelow_eq_ok_iff, Value.rows, Value.fits, Bool.and_eq_true, decide_eq_true_iff]
  simp

/-- A tree that has leaves under a limit has the same ones under every larger limit. -/
theorem leaves_of_le {limit limit' : Int} {tree : Table} {entries : List Entry} (hle : limit ≤ limit')
    (h : tree.leaves limit = .ok entries) : tree.leaves limit' = .ok entries := by
  rw [leaves_eq_ok_iff] at h ⊢
  obtain ⟨⟨hone, hfits⟩, hentries⟩ := h
  exact ⟨⟨by omega, fits_of_le tree hle hfits⟩, hentries⟩

end Table

/-! ## Looking leaves up -/

/-- What is found from a value along some keys, if it is a leaf. -/
def Value.leafAt? : List String → Value → Option Value
  | [], .table _ => none
  | [], v => some v
  | key :: keys, .table items => (Table.get? items (.text key)).bind (leafAt? keys)
  | _ :: _, _ => none

/-- The leaf of a tree along some keys. -/
def Table.leafAt? (items : Table) (keys : List String) : Option Value := (Value.table items).leafAt? keys

namespace Table

theorem leafAt?_cons (items : Table) (key : String) (keys : List String) :
    items.leafAt? (key :: keys) = (items.get? (.text key)).bind (Value.leafAt? keys) := rfl

theorem get?_cons (key k v : Value) (items : Table) :
    Table.get? ((k, v) :: items) key = if key.agrees k then some v else items.get? key := by
  simp only [Table.get?, List.find?_cons]
  cases key.agrees k <;> rfl

theorem get?_cons_text (key key' : String) (v : Value) (items : Table) :
    Table.get? ((.text key, v) :: items) (.text key') = if key = key' then some v else items.get? (.text key') := by
  rw [get?_cons, Value.agrees_text]
  by_cases h : key = key'
  · simp [h]
  · simp [h, Ne.symm h]

/-- A key that agrees with none has no value. -/
theorem get?_eq_none_of_all {key : Value} {items : Table} (h : (items.all fun item => !key.agrees item.1) = true) :
    items.get? key = none := by
  rw [List.all_eq_true] at h
  have hnone : items.find? (fun item => key.agrees item.1) = none := by
    rw [List.find?_eq_none]
    intro item hitem
    simpa using h item hitem
  rw [Table.get?, hnone]
  rfl

end Table

/-- No leaf lies on the way to another one. -/
theorem Value.leafAt?_append {keys more : List String} (hm : more ≠ []) : ∀ {v leaf : Value},
    v.leafAt? keys = some leaf → v.leafAt? (keys ++ more) = none := by
  induction keys with
  | nil =>
    intro v leaf h
    obtain ⟨key, more, rfl⟩ := List.exists_cons_of_ne_nil hm
    cases v <;> first | rfl | cases h
  | cons key keys ih =>
    intro v leaf h
    cases v with
    | table items =>
      rw [leafAt?, Option.bind_eq_some_iff] at h
      obtain ⟨inner, hg, hl⟩ := h
      rw [List.cons_append, leafAt?, hg, Option.bind_some]
      exact ih hl
    | _ => rfl

mutual

/-- Where no key comes twice, the rows of a value lead to the leaves that are found along their keys. -/
theorem Value.mem_rows_iff : ∀ (v : Value) {depth : Int} {keys : List String} {leaf : Value}, v.isProper = true →
    v.fits depth = true → ((keys, leaf) ∈ v.rows ↔ v.leafAt? keys = some leaf) := by
  intro v depth keys leaf hp hf
  cases v with
  | table items =>
    rw [Value.fits, Bool.and_eq_true] at hf
    rw [Value.isProper] at hp
    rw [Value.rows]
    exact Table.mem_rows_iff items hp hf.2
  | _ => cases keys <;> simp [Value.rows, Value.leafAt?, eq_comm]

/-- Where no key comes twice, the rows of a table lead to the leaves that are found along their keys. -/
theorem Table.mem_rows_iff : ∀ (items : List (Value × Value)) {depth : Int} {keys : List String} {leaf : Value},
    Table.isProper items = true → Table.fits depth items = true →
      ((keys, leaf) ∈ Table.rows items ↔ Table.leafAt? items keys = some leaf) := by
  intro items depth keys leaf hp hf
  match items with
  | [] => cases keys <;> simp [Table.rows, Table.leafAt?, Value.leafAt?, Table.get?]
  | (k, v) :: items =>
    rw [Table.isProper, Bool.and_eq_true, Bool.and_eq_true] at hp
    obtain ⟨⟨hnew, hv⟩, hi⟩ := hp
    simp only [Table.fits, Bool.and_eq_true] at hf
    obtain ⟨⟨hk, hfv⟩, hfi⟩ := hf
    obtain ⟨key, rfl, -⟩ := Value.isKey_eq_true_iff.1 hk
    have hrest : (keys, leaf) ∈ Table.rows items ↔ Table.leafAt? items keys = some leaf :=
      Table.mem_rows_iff items hi hfi
    have hcons : (keys, leaf) ∈ Table.rows ((.text key, v) :: items) ↔
        (∃ keys', (keys', leaf) ∈ v.rows ∧ key :: keys' = keys) ∨ (keys, leaf) ∈ Table.rows items := by
      simp [Table.rows]
    rw [hcons, hrest]
    cases keys with
    | nil => simp [Table.leafAt?, Value.leafAt?]
    | cons key' keys' =>
      simp only [Table.leafAt?_cons, Table.get?_cons_text, List.cons.injEq]
      by_cases h : key = key'
      · subst h
        have hnone : Table.get? items (.text key) = none := Table.get?_eq_none_of_all hnew
        simp [hnone, v.mem_rows_iff hv hfv]
      · simp [h]

end

mutual

/-- The keys that lead to a leaf of a value are keys of phrases. -/
theorem Value.isKey_of_mem_rows : ∀ (v : Value) {depth : Int}, v.fits depth = true → ∀ row ∈ v.rows,
    ∀ key ∈ row.1, Path.isKey key = true := by
  intro v depth hf row hrow
  cases v with
  | table items =>
    rw [Value.fits, Bool.and_eq_true] at hf
    rw [Value.rows] at hrow
    exact (Table.isKey_of_mem_rows items hf.2 row hrow).2
  | _ => simp_all [Value.rows]

/-- The keys that lead to a leaf of a table are keys of phrases, and there is at least one. -/
theorem Table.isKey_of_mem_rows : ∀ (items : List (Value × Value)) {depth : Int}, Table.fits depth items = true →
    ∀ row ∈ Table.rows items, row.1 ≠ [] ∧ ∀ key ∈ row.1, Path.isKey key = true := by
  intro items depth hf row hrow
  match items with
  | [] => cases hrow
  | (k, v) :: items =>
    simp only [Table.fits, Bool.and_eq_true] at hf
    obtain ⟨⟨hk, hfv⟩, hfi⟩ := hf
    obtain ⟨key, rfl, hkey⟩ := Value.isKey_eq_true_iff.1 hk
    rw [Table.rows, List.mem_append] at hrow
    rcases hrow with hrow | hrow
    · obtain ⟨inner, hinner, rfl⟩ := List.mem_map.1 hrow
      refine ⟨List.cons_ne_nil _ _, List.forall_mem_cons.2 ⟨hkey, ?_⟩⟩
      exact v.isKey_of_mem_rows hfv inner hinner
    · exact Table.isKey_of_mem_rows items hfi row hrow

end

namespace Table

variable {limit : Int} {tree : Table} {entries : List Entry}

/-- A leaf comes from a row of keys, which are the keys of its path. -/
theorem exists_row_of_mem_leaves (h : tree.leaves limit = .ok entries) {entry : Entry} (he : entry ∈ entries) :
    (Path.segments entry.path, entry.value) ∈ rows tree ∧ Path.segments entry.path ≠ [] ∧
      ∀ key ∈ Path.segments entry.path, Path.isKey key = true := by
  obtain ⟨⟨-, hfits⟩, rfl⟩ := leaves_eq_ok_iff.1 h
  obtain ⟨row, hrow, rfl⟩ := List.mem_map.1 he
  obtain ⟨hne, hkeys⟩ := isKey_of_mem_rows tree hfits row hrow
  have hseg : Path.segments (Entry.ofRow [] row).path = row.1 := Path.segments_join hne hkeys
  rw [hseg]
  exact ⟨hrow, hne, hkeys⟩

/-- Where no key comes twice, the leaf at a path is the one that is found along its keys. -/
theorem mem_leaves_iff (hp : isProper tree = true) (h : tree.leaves limit = .ok entries) {path : String}
    {value : Value} : ⟨path, value⟩ ∈ entries ↔ tree.leafAt? (Path.segments path) = some value := by
  obtain ⟨⟨-, hfits⟩, hentries⟩ := leaves_eq_ok_iff.1 h
  rw [← mem_rows_iff tree hp hfits]
  constructor
  · intro he
    exact (exists_row_of_mem_leaves h he).1
  · intro hrow
    rw [hentries, List.mem_map]
    refine ⟨_, hrow, ?_⟩
    rw [Entry.ofRow, List.nil_append, Path.join_segments]

end Table

end Phrasebook
