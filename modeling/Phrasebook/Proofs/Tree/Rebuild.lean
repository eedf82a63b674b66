import Phrasebook.Tree.Assemble
import Phrasebook.Proofs.Tree.Rows

/-!
# Rebuilding a phrase tree from its leaves

* `Table.pruned` is a tree without the tables that hold no leaf; `Table.isFilled` says that none of its tables is empty.
* `Table.plantRows_rows`: planting the rows of some items adds what is left of them when they are pruned.
* `Table.leaves_lossless`: the leaves of a tree have different paths, none lies on the way to another one, and
  assembling them gives the pruned tree.
-/

namespace Phrasebook

/-! ## Pruning -/

mutual

/-- A value without the tables in it that hold no leaf. -/
def Value.pruned : Value → Value
  | .table items => .table (Table.pruned items)
  | v => v

/-- The items of a table without the tables that hold no leaf, at any depth. -/
def Table.pruned : List (Value × Value) → List (Value × Value)
  | [] => []
  | (k, v) :: items => if v.holdsLeaf then (k, v.pruned) :: Table.pruned items else Table.pruned items

end

mutual

/-- Whether a value is not an empty table and has none in it. -/
def Value.isFilled : Value → Bool
  | .table items => !items.isEmpty && Table.isFilled items
  | _ => true

/-- Whether no value of a table is an empty table or has one in it. -/
def Table.isFilled : List (Value × Value) → Bool
  | [] => true
  | (_, v) :: items => v.isFilled && Table.isFilled items

end

mutual

/-- A value without empty tables holds a leaf, and there is nothing to prune. -/
theorem Value.pruned_of_isFilled : ∀ v : Value, v.isFilled = true → v.holdsLeaf = true ∧ v.pruned = v := by
  intro v h
  cases v with
  | table items =>
    rw [Value.isFilled, Bool.and_eq_true] at h
    obtain ⟨hne, hi⟩ := h
    obtain ⟨hleaf, hpruned⟩ := Table.pruned_of_isFilled items hi
    refine ⟨hleaf (by simpa using hne), ?_⟩
    rw [Value.pruned, hpruned]
  | _ => exact ⟨rfl, rfl⟩

/-- In a table without empty tables there is nothing to prune. -/
theorem Table.pruned_of_isFilled : ∀ items : List (Value × Value), Table.isFilled items = true →
    (items ≠ [] → Table.holdsLeaf items = true) ∧ Table.pruned items = items := by
  intro items h
  match items with
  | [] => exact ⟨fun hne => absurd rfl hne, rfl⟩
  | (k, v) :: items =>
    rw [Table.isFilled, Bool.and_eq_true] at h
    obtain ⟨hleaf, hv⟩ := v.pruned_of_isFilled h.1
    obtain ⟨-, hi⟩ := Table.pruned_of_isFilled items h.2
    refine ⟨fun _ => ?_, ?_⟩
    · rw [Table.holdsLeaf, hleaf, Bool.true_or]
    · rw [Table.pruned, if_pos hleaf, hv, hi]

end

/-! ## Planting -/

namespace Table

theorem get?_append (items more : Table) (key : Value) :
    Table.get? (items ++ more) key = (items.get? key).or (Table.get? more key) := by
  simp only [get?, List.find?_append]
  cases items.find? fun item => key.agrees item.1 <;> rfl

/-- A new key comes last with its value. -/
theorem set_of_get?_none {key : Value} : ∀ {items : Table}, items.get? key = none → ∀ v : Value,
    items.set key v = items ++ [(key, v)] := by
  intro items h v
  induction items with
  | nil => rfl
  | cons item items ih =>
    obtain ⟨k, w⟩ := item
    simp only [get?, List.find?_cons] at h ih
    cases hk : key.agrees k with
    | true => simp [hk] at h
    | false =>
      simp only [hk] at h
      simp [set, hk, ih h]

/-- The last key gets another value. -/
theorem set_last {key : String} {items : Table} (h : items.get? (.text key) = none) (v w : Value) :
    Table.set (.text key) v (items ++ [(.text key, w)]) = items ++ [(.text key, v)] := by
  induction items with
  | nil => simp [set, Value.agrees_text]
  | cons item items ih =>
    obtain ⟨k, u⟩ := item
    simp only [get?, List.find?_cons] at h ih
    cases hk : (Value.text key).agrees k with
    | true => simp [hk] at h
    | false =>
      simp only [hk] at h
      simp [set, hk, ih h]

/-- Plants leaves at the ends of rows of keys; `pathOf` tells how a row is called in a fault. -/
def plantRows (pathOf : List String → String) (rows : List (List String × Value)) (items : Table) :
    Except Fault Table :=
  rows.foldlM (fun items row => plant ⟨pathOf row.1, row.2⟩ row.1 items) items

theorem plantRows_nil (pathOf : List String → String) (items : Table) : plantRows pathOf [] items = .ok items := rfl

theorem plantRows_cons (pathOf : List String → String) (row : List String × Value) (rows : List (List String × Value))
    (items : Table) : plantRows pathOf (row :: rows) items =
      plant ⟨pathOf row.1, row.2⟩ row.1 items >>= fun items => plantRows pathOf rows items := rfl

theorem plantRows_append (pathOf : List String → String) (rows rows' : List (List String × Value)) (items : Table) :
    plantRows pathOf (rows ++ rows') items =
      plantRows pathOf rows items >>= fun items => plantRows pathOf rows' items := by
  simp only [plantRows, List.foldlM_append]

/-- Entries are planted along the keys of their paths. -/
theorem ofEntries_eq_plantRows (entries : List Entry) :
    ofEntries entries = plantRows Path.join (entries.map fun entry => (Path.segments entry.path, entry.value)) [] := by
  simp only [ofEntries, plantRows, List.foldlM_map, Path.join_segments]

section Below

variable (pathOf : List String → String) {key : String} {base : Table}

/-- Planting below the last key changes the table there. -/
theorem plant_below (hb : base.get? (.text key) = none) (leaf : Value) {keys : List String} (hk : keys ≠ [])
    (inner : Table) :
    plant ⟨pathOf (key :: keys), leaf⟩ (key :: keys) (base ++ [(.text key, .table inner)]) =
      plant ⟨pathOf (key :: keys), leaf⟩ keys inner >>= fun inner => .ok (base ++ [(.text key, .table inner)]) := by
  obtain ⟨next, keys, rfl⟩ := List.exists_cons_of_ne_nil hk
  have hget : Table.get? (base ++ [(.text key, .table inner)]) (.text key) = some (.table inner) := by
    rw [get?_append, hb, Option.none_or, get?_cons_text, if_pos rfl]
  rw [plant, hget]
  refine bind_congr fun inner' => ?_
  rw [set_last hb]
  rfl

/-- Planting below a new key makes a table there. -/
theorem plant_new (hb : base.get? (.text key) = none) (leaf : Value) {keys : List String} (hk : keys ≠ []) :
    plant ⟨pathOf (key :: keys), leaf⟩ (key :: keys) base =
      plant ⟨pathOf (key :: keys), leaf⟩ keys [] >>= fun inner => .ok (base ++ [(.text key, .table inner)]) := by
  obtain ⟨next, keys, rfl⟩ := List.exists_cons_of_ne_nil hk
  rw [plant, hb]
  refine bind_congr fun inner => ?_
  rw [set_of_get?_none hb]
  rfl

/-- Planting rows below the last key plants them in the table there. -/
theorem plantRows_below (hb : base.get? (.text key) = none) : ∀ {rows : List (List String × Value)},
    (∀ row ∈ rows, row.1 ≠ []) → ∀ inner : Table,
      plantRows pathOf (rows.map fun row => (key :: row.1, row.2)) (base ++ [(.text key, .table inner)]) =
        plantRows (fun keys => pathOf (key :: keys)) rows inner >>= fun inner =>
          .ok (base ++ [(.text key, .table inner)]) := by
  intro rows hr
  induction rows with
  | nil => intro inner; rfl
  | cons row rows ih =>
    intro inner
    rw [List.forall_mem_cons] at hr
    rw [List.map_cons, plantRows_cons, plantRows_cons, plant_below pathOf hb row.2 hr.1, bind_assoc, bind_assoc]
    refine bind_congr fun inner' => ?_
    rw [ok_bind, ih hr.2]

/-- Planting rows below a new key makes a table there and plants them in it. -/
theorem plantRows_new (hb : base.get? (.text key) = none) {rows : List (List String × Value)} (hne : rows ≠ [])
    (hr : ∀ row ∈ rows, row.1 ≠ []) :
    plantRows pathOf (rows.map fun row => (key :: row.1, row.2)) base =
      plantRows (fun keys => pathOf (key :: keys)) rows [] >>= fun inner =>
        .ok (base ++ [(.text key, .table inner)]) := by
  obtain ⟨row, rows, rfl⟩ := List.exists_cons_of_ne_nil hne
  rw [List.forall_mem_cons] at hr
  rw [List.map_cons, plantRows_cons, plantRows_cons, plant_new pathOf hb row.2 hr.1, bind_assoc, bind_assoc]
  refine bind_congr fun inner => ?_
  rw [ok_bind, plantRows_below pathOf hb hr.2]

end Below

end Table

mutual

/-- Planting the rows of a value at a new key adds what is left of it when it is pruned, if it holds a leaf. -/
theorem Value.plantRows_rows : ∀ (v : Value) {depth : Int} (pathOf : List String → String) {key : String}
    {base : Table}, v.isProper = true → v.fits depth = true → base.get? (.text key) = none →
      Table.plantRows pathOf (v.rows.map fun row => (key :: row.1, row.2)) base =
        .ok (base ++ if v.holdsLeaf then [(.text key, v.pruned)] else []) := by
  intro v depth pathOf key base hp hf hb
  cases v with
  | table items =>
    rw [Value.isProper] at hp
    rw [Value.fits, Bool.and_eq_true] at hf
    rw [Value.rows, Value.holdsLeaf, Value.pruned]
    by_cases hrows : Table.rows items = []
    · have hleaf := (Table.rows_eq_nil_iff items).1 hrows
      rw [hrows, hleaf]
      simp [Table.plantRows_nil]
    · have hleaf : Table.holdsLeaf items = true := by
        rw [← Bool.not_eq_false, ← Table.rows_eq_nil_iff items]
        exact hrows
      have hkeys : ∀ row ∈ Table.rows items, row.1 ≠ [] := fun row hrow =>
        (Table.isKey_of_mem_rows items hf.2 row hrow).1
      have hinner : Table.plantRows (fun keys => pathOf (key :: keys)) (Table.rows items) [] =
          .ok ([] ++ Table.pruned items) := Table.plantRows_rows items _ hp hf.2 fun _ _ => rfl
      rw [Table.plantRows_new pathOf hb hrows hkeys, hinner, ok_bind, hleaf, List.nil_append, if_pos rfl]
  | _ => simp [Value.rows, Value.holdsLeaf, Value.pruned, Table.plantRows, Table.plant, Table.set_of_get?_none hb]

/-- Planting the rows of some items with new keys adds what is left of them when they are pruned. -/
theorem Table.plantRows_rows : ∀ (items : List (Value × Value)) {depth : Int} (pathOf : List String → String)
    {base : Table}, Table.isProper items = true → Table.fits depth items = true →
      (∀ item ∈ items, base.get? item.1 = none) →
        Table.plantRows pathOf (Table.rows items) base = .ok (base ++ Table.pruned items) := by
  intro items depth pathOf base hp hf hb
  match items with
  | [] => simp [Table.rows, Table.pruned, Table.plantRows_nil]
  | (k, v) :: items =>
    rw [Table.isProper, Bool.and_eq_true, Bool.and_eq_true, List.all_eq_true] at hp
    obtain ⟨⟨hnew, hv⟩, hi⟩ := hp
    simp only [Table.fits, Bool.and_eq_true] at hf
    obtain ⟨⟨hk, hfv⟩, hfi⟩ := hf
    obtain ⟨key, rfl, -⟩ := Value.isKey_eq_true_iff.1 hk
    rw [List.forall_mem_cons] at hb
    -- what has been added for `v` does not stand in the way of the items behind it
    have hb' : ∀ item ∈ items,
        Table.get? (base ++ if v.holdsLeaf then [(.text key, v.pruned)] else []) item.1 = none := by
      intro item hitem
      rw [Table.get?_append, hb.2 item hitem, Option.none_or]
      obtain ⟨key', hkey', -⟩ := Value.isKey_eq_true_iff.1 (Table.fits_iff.1 hfi item hitem).1
      have hne := hnew item hitem
      rw [hkey', Value.agrees_text] at hne
      rw [hkey']
      by_cases hleaf : v.holdsLeaf = true
      · rw [if_pos hleaf, Table.get?_cons_text, if_neg (by simpa using hne)]
        rfl
      · rw [if_neg hleaf]
        rfl
    rw [Table.rows, Table.plantRows_append, Value.keyText_text, v.plantRows_rows pathOf hv hfv hb.1, ok_bind,
      Table.plantRows_rows items pathOf hi hfi hb', Table.pruned, List.append_assoc]
    by_cases hleaf : v.holdsLeaf = true <;> simp [hleaf]

end

/-! ## Paths of leaves -/

namespace Table

variable {limit : Int} {tree : Table} {entries : List Entry}

/-- **Nothing is lost.** The paths of the leaves of a tree in which no key comes twice are rows of keys with dots
between them, no two are the same, and none leads on to another one. Assembling the leaves gives the tree without the
tables that hold no leaf, and so the tree itself if it has no empty table. A larger limit gives the same leaves. -/
theorem leaves_lossless (hp : isProper tree = true) (h : tree.leaves limit = .ok entries) :
    (∀ entry ∈ entries, entry.path ≠ "" ∧ ∀ key ∈ Path.segments entry.path, Path.isKey key = true) ∧
      (entries.map Entry.path).Nodup ∧
      (∀ entry ∈ entries, ∀ other ∈ entries, ∀ rest, other.path ≠ entry.path ++ "." ++ rest) ∧
      ofEntries entries = .ok (pruned tree) ∧ (isFilled tree = true → ofEntries entries = .ok tree) ∧
      ∀ limit', limit ≤ limit' → tree.leaves limit' = .ok entries := by
  have hassemble : ofEntries entries = .ok (pruned tree) := by
    obtain ⟨⟨-, hfits⟩, hentries⟩ := leaves_eq_ok_iff.1 h
    have hrows : (entries.map fun entry => (Path.segments entry.path, entry.value)) = rows tree := by
      rw [hentries, List.map_map]
      refine (List.map_congr_left fun row hrow => ?_).trans (List.map_id _)
      obtain ⟨hne, hkeys⟩ := isKey_of_mem_rows tree hfits row hrow
      exact Prod.ext (Path.segments_join hne hkeys) rfl
    rw [ofEntries_eq_plantRows, hrows, plantRows_rows tree Path.join hp hfits fun item _ => rfl, List.nil_append]
  refine ⟨?_, nodup_paths_leaves hp h, ?_, hassemble, ?_, fun limit' hle => leaves_of_le hle h⟩
  · intro entry he
    obtain ⟨-, hne, hkeys⟩ := exists_row_of_mem_leaves h he
    refine ⟨?_, hkeys⟩
    intro hempty
    rw [hempty] at hkeys
    exact absurd (hkeys "" (by decide)) (by decide)
  · intro entry he other ho rest hpath
    obtain ⟨⟨-, hfits⟩, -⟩ := leaves_eq_ok_iff.1 h
    have hleaf := (mem_rows_iff tree hp hfits).1 (exists_row_of_mem_leaves h he).1
    have hleaf' := (mem_rows_iff tree hp hfits).1 (exists_row_of_mem_leaves h ho).1
    have hmore : Path.segments rest ≠ [] := by
      rw [Path.segments, ne_eq, List.map_eq_nil_iff]
      exact Text.fields_ne_nil '.' _
    rw [hpath, Path.segments_append, leafAt?, Value.leafAt?_append hmore hleaf] at hleaf'
    cases hleaf'
  · intro hfilled
    rw [hassemble, (pruned_of_isFilled tree hfilled).2]

/-- A tree with an empty table beside its leaves, and one without. -/
theorem leaves_lossless_menu :
    let tree : Table := [(.text "menu", .table [(.text "file", .text "File"), (.text "old", .table [])]),
      (.text "hi", .int 7)]
    isProper tree = true ∧ ∃ entries, tree.leaves 3 = .ok entries ∧ entries.map Entry.path = ["menu.file", "hi"] ∧
      ofEntries entries = .ok [(.text "menu", .table [(.text "file", .text "File")]), (.text "hi", .int 7)] ∧
      ∀ limit', 3 ≤ limit' → tree.leaves limit' = .ok entries := by
  intro tree
  have hp : isProper tree = true := by decide +kernel
  have hl : tree.leaves 3 = .ok ((rows tree).map (Entry.ofRow [])) :=
    leaves_eq_ok_iff.2 ⟨⟨by decide, by decide +kernel⟩, rfl⟩
  obtain ⟨-, -, -, hassemble, -, hlimit⟩ := leaves_lossless hp hl
  exact ⟨hp, _, hl, by decide +kernel, hassemble, hlimit⟩

end Table

end Phrasebook
