import Phrasebook.Proofs.Tree.Overlay
import Phrasebook.Proofs.Tree.Rebuild
import Phrasebook.Proofs.Tree.Reordered

/-!
# Planting a leaf

* `Table.Tidy`: a phrase tree in which no key comes twice and no table is empty. It has a row below each of its keys.
* `Table.OpenAt`: what there is to know about a key below which a leaf can be planted.
* `Table.exists_planted`: planting a leaf whose keys are apart from those of the others adds its row and keeps the tree
  tidy. The row comes last, or it comes behind rows of a scope of it that are followed by a row from elsewhere
  (`Table.JoinsAt`).
-/

namespace Phrasebook

/-- A leaf has no key twice, fits anywhere, is no empty table and has one row. -/
theorem Value.facts_of_isLeaf {v : Value} (h : v.isLeaf = true) :
    v.isProper = true ∧ (∀ depth, v.fits depth = true) ∧ v.isFilled = true ∧ v.rows = [([], v)] := by
  cases v with
  | table items => cases h
  | _ => exact ⟨rfl, fun _ => h, rfl, rfl⟩

namespace Table

/-! ## Tidy trees -/

/-- A phrase tree of some depth in which no key comes twice and no table is empty. -/
structure Tidy (depth : Int) (items : Table) : Prop where
  proper : isProper items = true
  fits : fits depth items = true
  filled : isFilled items = true

variable {depth : Int} {items : Table} {key : String}

theorem Tidy.nil : Tidy depth [] := ⟨rfl, rfl, rfl⟩

theorem isFilled_iff {items : Table} : isFilled items = true ↔ ∀ item ∈ items, item.2.isFilled = true := by
  induction items with
  | nil => simp [isFilled]
  | cons item items ih =>
    obtain ⟨k, v⟩ := item
    rw [isFilled, Bool.and_eq_true, ih, List.forall_mem_cons]

/-- A table is cut at a key that it has, and a value that is put there takes the place of the one there. -/
theorem exists_append_of_get? (hp : isProper items = true) {v : Value} (h : items.get? (.text key) = some v) :
    ∃ before after, items = before ++ (.text key, v) :: after ∧
      Table.get? before (.text key) = none ∧ Table.get? after (.text key) = none ∧
      ∀ w, items.set (.text key) w = before ++ (.text key, w) :: after := by
  induction items with
  | nil => cases h
  | cons item items ih =>
    obtain ⟨k, u⟩ := item
    rw [get?_cons] at h
    by_cases hk : (Value.text key).agrees k = true
    · rw [if_pos hk] at h
      obtain rfl := Option.some.inj h
      obtain rfl := Value.text_agrees_iff.1 hk
      exact ⟨[], items, rfl, rfl, get?_eq_none_of_isProper hp, fun w => by rw [set, if_pos hk, List.nil_append]⟩
    · rw [if_neg hk] at h
      obtain ⟨before, after, rfl, hbefore, hafter, hset⟩ := ih (isProper_cons_iff.1 hp).2.2 h
      refine ⟨(k, u) :: before, after, rfl, ?_, hafter, fun w => ?_⟩
      · rw [get?_cons, if_neg hk, hbefore]
      · rw [set, if_neg hk, hset, List.cons_append]

/-- What lies at a key of a table without empty tables is not one and has none in it. -/
theorem isFilled_of_get? (h : isFilled items = true) {v : Value} (hv : items.get? (.text key) = some v) :
    v.isFilled = true := by
  obtain ⟨k, hmem, -⟩ := mem_of_get? hv
  exact isFilled_iff.1 h _ hmem

/-- A tidy tree stays tidy where a leaf or a tidy tree is put at a key. -/
theorem Tidy.set (h : Tidy depth items) (hk : Path.isKey key = true) {v : Value} (hp : v.isProper = true)
    (hf : v.fits (depth - 1) = true) (hv : v.isFilled = true) : Tidy depth (items.set (.text key) v) where
  proper := isProper_set h.fits h.proper _ hp
  fits := fits_set h.fits hk hf
  filled := by
    have hfilled := isFilled_iff.1 h.filled
    cases hget : items.get? (.text key) with
    | none =>
      rw [set_of_get?_none hget, isFilled_iff, List.forall_mem_append]
      exact ⟨hfilled, List.forall_mem_singleton.2 hv⟩
    | some old =>
      obtain ⟨before, after, rfl, -, -, hset⟩ := exists_append_of_get? h.proper hget
      rw [List.forall_mem_append, List.forall_mem_cons] at hfilled
      rw [hset, isFilled_iff, List.forall_mem_append, List.forall_mem_cons]
      exact ⟨hfilled.1, hv, hfilled.2.2⟩

/-- The table at a key of a tidy tree is one. -/
theorem Tidy.inner (h : Tidy depth items) {inner : Table} (hget : items.get? (.text key) = some (.table inner)) :
    Tidy (depth - 1) inner := by
  have hp := isProper_of_get? h.proper hget
  have hf := fits_of_get? h.fits hget
  have hi := isFilled_of_get? h.filled hget
  rw [Value.isProper] at hp
  rw [Value.fits, Bool.and_eq_true] at hf
  rw [Value.isFilled, Bool.and_eq_true] at hi
  exact ⟨hp, hf.2, hi.2⟩

/-- What lies at a key of a tidy tree is a leaf or holds one. -/
theorem Tidy.rows_ne_nil (h : Tidy depth items) {v : Value} (hget : items.get? (.text key) = some v) : v.rows ≠ [] := by
  rw [ne_eq, Value.rows_eq_nil_iff, Bool.not_eq_false]
  exact (v.pruned_of_isFilled (isFilled_of_get? h.filled hget)).1

/-! ## Rows below a key -/

/-- The rows of a value below one more key. -/
def rowsBelow (key : String) (v : Value) : List (List String × Value) := v.rows.map fun row => (key :: row.1, row.2)

theorem mem_rowsBelow {v : Value} {row : List String × Value} :
    row ∈ rowsBelow key v ↔ ∃ row' ∈ v.rows, (key :: row'.1, row'.2) = row := List.mem_map

/-- A row of what lies at a key is one of the table below the key. -/
theorem cons_mem_rows {v : Value} {front back : List (List String × Value)}
    (h : rows items = front ++ rowsBelow key v ++ back) {row : List String × Value} (hrow : row ∈ v.rows) :
    (key :: row.1, row.2) ∈ rows items := by
  rw [h]
  exact List.mem_append_left _ (List.mem_append_right _ (mem_rowsBelow.2 ⟨row, hrow, rfl⟩))

/-- No row of a table begins with a key that the table does not have. -/
theorem not_prefix_of_get?_none (hf : Table.fits depth items = true) (h : items.get? (.text key) = none) :
    ∀ row ∈ rows items, ¬ [key] <+: row.1 := by
  induction items with
  | nil => exact fun row hrow => absurd hrow List.not_mem_nil
  | cons item items ih =>
    obtain ⟨k, v⟩ := item
    obtain ⟨⟨hk, -⟩, hfi⟩ := fits_cons_iff.1 hf
    obtain ⟨key', rfl, -⟩ := Value.isKey_eq_true_iff.1 hk
    rw [get?_cons_text] at h
    split at h
    · cases h
    · next hne =>
      intro row hrow
      rcases List.mem_append.1 hrow with hrow | hrow
      · obtain ⟨row', -, rfl⟩ := List.mem_map.1 hrow
        rintro ⟨more, hmore⟩
        exact hne (List.cons.inj hmore).1.symm
      · exact ih hfi h row hrow

/-- The rows of a table with a key are those before it, those below it and those behind it, and only those below it
begin with the key. -/
theorem rows_of_get? (hp : isProper items = true) (hf : Table.fits depth items = true) {v : Value}
    (hget : items.get? (.text key) = some v) :
    ∃ before after, (∀ row ∈ before ++ after, ¬ [key] <+: row.1) ∧ rows items = before ++ rowsBelow key v ++ after ∧
      ∀ w : Value, rows (items.set (.text key) w) = before ++ rowsBelow key w ++ after := by
  obtain ⟨before, after, rfl, hbefore, hafter, hset⟩ := exists_append_of_get? hp hget
  have hrows : ∀ w : Value, rows (before ++ (.text key, w) :: after) =
      rows before ++ rowsBelow key w ++ rows after := by
    intro w
    rw [rows_append, rows, Value.keyText_text, List.append_assoc]
    rfl
  rw [fits_iff, List.forall_mem_append, List.forall_mem_cons] at hf
  refine ⟨rows before, rows after, ?_, hrows v, fun w => by rw [hset, hrows]⟩
  rw [List.forall_mem_append]
  exact ⟨not_prefix_of_get?_none (fits_iff.2 hf.1) hbefore, not_prefix_of_get?_none (fits_iff.2 hf.2.2) hafter⟩

/-- Below each of its keys a tidy tree has a row. -/
theorem Tidy.exists_row_of_get? (h : Tidy depth items) {v : Value} (hget : items.get? (.text key) = some v) :
    ∃ row ∈ rows items, [key] <+: row.1 := by
  obtain ⟨before, after, -, hrows, -⟩ := rows_of_get? h.proper h.fits hget
  obtain ⟨row, hrow⟩ := List.exists_mem_of_ne_nil _ (h.rows_ne_nil hget)
  exact ⟨_, cons_mem_rows hrows hrow, row.1, rfl⟩

/-- The rows of a table that gets a new key are those it has, and then those below it. -/
theorem rows_set_of_get?_none (hget : items.get? (.text key) = none) (v : Value) :
    rows (items.set (.text key) v) = rows items ++ rowsBelow key v := by
  rw [set_of_get?_none hget, rows_append, rows, rows, List.append_nil]
  rfl

/-- A key of a table at which leaves can be planted: there is a table below it or, if the table does not have the key,
an empty one is made. Its rows stand between some at the front and some at the back. -/
structure OpenAt (items : Table) (key : String) (inner : Table) (front back : List (List String × Value)) : Prop where
  rows_eq : rows items = front ++ rowsBelow key (.table inner) ++ back
  rows_set : ∀ v : Value, rows (items.set (.text key) v) = front ++ rowsBelow key v ++ back
  back_apart : ∀ row ∈ back, ¬ [key] <+: row.1
  back_eq_nil : rows inner = [] → back = []
  plant_eq : ∀ entry keys, keys ≠ [] → plant entry (key :: keys) items =
    plant entry keys inner >>= fun inner => .ok (items.set (.text key) (.table inner))

/-- A tidy tree is open at each key at which it has no leaf. -/
theorem Tidy.exists_openAt (h : Tidy depth items) (hleaf : ∀ row ∈ rows items, row.1 ≠ [key]) :
    ∃ inner front back, Tidy (depth - 1) inner ∧ OpenAt items key inner front back := by
  cases hget : items.get? (.text key) with
  | none =>
    refine ⟨[], rows items, [], .nil, ?_, fun v => ?_, fun row hrow => (by cases hrow), fun _ => rfl, ?_⟩
    · exact (List.append_nil _).symm.trans (congrArg (· ++ []) (List.append_nil _).symm)
    · rw [rows_set_of_get?_none hget, List.append_nil]
    · intro entry keys hk
      obtain ⟨next, keys, rfl⟩ := List.exists_cons_of_ne_nil hk
      rw [plant, hget]
      rfl
  | some v =>
    obtain ⟨front, back, hapart, hrows, hput⟩ := rows_of_get? h.proper h.fits hget
    have hne := h.rows_ne_nil hget
    have hlast : ∀ row ∈ v.rows, row.1 ≠ [] := by
      intro row hrow hnil
      exact hleaf _ (cons_mem_rows hrows hrow) (by rw [hnil])
    cases v with
    | table inner =>
      refine ⟨inner, front, back, h.inner hget, hrows, hput, fun row hrow => hapart row (List.mem_append_right _ hrow),
        fun hnil => absurd hnil hne, ?_⟩
      intro entry keys hk
      obtain ⟨next, keys, rfl⟩ := List.exists_cons_of_ne_nil hk
      rw [plant, hget]
      rfl
    | _ => exact (hlast _ (List.mem_singleton_self _) rfl).elim

/-! ## Planting one leaf -/

/-- A row joins others: it comes after some of them and before the others. If there are others behind it, then some
before it lie below a scope of it, and one behind it does not. -/
structure JoinsAt (row : List String × Value) (before after joined : List (List String × Value)) : Prop where
  joined_eq : joined = before ++ row :: after
  scope : after ≠ [] → ∃ scope, scope ≠ [] ∧ scope <+: row.1 ∧ (∃ earlier ∈ before, scope <+: earlier.1) ∧
    ∃ later ∈ after, ¬ scope <+: later.1

/-- Neither of two rows of keys leads on to the other one. -/
def Apart (keys keys' : List String) : Prop := ¬ keys <+: keys' ∧ ¬ keys' <+: keys

theorem apart_cons_iff {keys keys' : List String} : Apart (key :: keys) (key :: keys') ↔ Apart keys keys' := by
  simp [Apart]

/-- A row that joins those in the table at a key joins those of the whole table. -/
theorem OpenAt.joinsAt {inner inner' : Table} {front back before after : List (List String × Value)}
    (h : OpenAt items key inner front back) (hold : rows inner = before ++ after) {row : List String × Value}
    (hjoins : JoinsAt row before after (rows inner')) :
    ∃ before' after', rows items = before' ++ after' ∧
      JoinsAt (key :: row.1, row.2) before' after' (rows (items.set (.text key) (.table inner'))) := by
  let below := List.map fun row : List String × Value => (key :: row.1, row.2)
  refine ⟨front ++ below before, below after ++ back, ?_, ?_, fun hafter => ?_⟩
  · simp [h.rows_eq, rowsBelow, Value.rows, hold, below]
  · simp [h.rows_set, rowsBelow, Value.rows, hjoins.joined_eq, below]
  · by_cases hnil : after = []
    · -- the row is the last one below the key, and what follows is from elsewhere
      subst hnil
      have hback : back ≠ [] := hafter
      rw [List.append_nil] at hold
      obtain ⟨earlier, he⟩ := List.exists_mem_of_ne_nil before fun hnil => hback (h.back_eq_nil (hold.trans hnil))
      obtain ⟨later, hl⟩ := List.exists_mem_of_ne_nil _ hback
      exact ⟨[key], List.cons_ne_nil _ _, ⟨row.1, rfl⟩,
        ⟨_, List.mem_append_right _ (List.mem_map_of_mem he), ⟨earlier.1, rfl⟩⟩,
        later, List.mem_append_right _ hl, h.back_apart later hl⟩
    · obtain ⟨scope, -, hprefix, ⟨earlier, he, hep⟩, later, hl, hlp⟩ := hjoins.scope hnil
      exact ⟨key :: scope, List.cons_ne_nil _ _, List.cons_prefix_cons.2 ⟨rfl, hprefix⟩,
        ⟨_, List.mem_append_right _ (List.mem_map_of_mem he), List.cons_prefix_cons.2 ⟨rfl, hep⟩⟩,
        _, List.mem_append_left _ (List.mem_map_of_mem hl), fun hp => hlp (List.cons_prefix_cons.1 hp).2⟩

/-- A tidy tree stays tidy where a tidy tree with a row is put at a key. -/
theorem Tidy.set_table (h : Tidy depth items) (hk : Path.isKey key = true) (hone : 1 ≤ depth - 1) {inner : Table}
    (hi : Tidy (depth - 1) inner) (hne : rows inner ≠ []) : Tidy depth (items.set (.text key) (.table inner)) := by
  refine h.set hk ?_ ?_ ?_
  · rw [Value.isProper]
    exact hi.proper
  · rw [Value.fits, Bool.and_eq_true, decide_eq_true_iff]
    exact ⟨hone, hi.fits⟩
  · have hitems : inner ≠ [] := by
      rintro rfl
      exact hne rfl
    rw [Value.isFilled, Bool.and_eq_true]
    exact ⟨by simpa using hitems, hi.filled⟩

/-- **Planting a leaf adds its row.** In a tidy tree, where the rows are apart from the keys, the leaf can be planted.
The tree stays tidy, and the rows are joined by that of the leaf. -/
theorem exists_planted {entry : Entry} (hv : entry.value.isLeaf = true) {keys : List String} :
    ∀ {depth : Int} {items : Table}, keys ≠ [] → (∀ key ∈ keys, Path.isKey key = true) → keys.length ≤ depth →
      Tidy depth items → (∀ row ∈ rows items, Apart row.1 keys) →
        ∃ tree, plant entry keys items = .ok tree ∧ Tidy depth tree ∧
          ∃ before after, rows items = before ++ after ∧ JoinsAt (keys, entry.value) before after (rows tree) := by
  induction keys with
  | nil => exact fun hne => absurd rfl hne
  | cons key keys ih =>
    intro depth items _ hkeys hdepth h hapart
    obtain ⟨hkey, hkeys⟩ := List.forall_mem_cons.1 hkeys
    by_cases hnil : keys = []
    · subst hnil
      have hget : items.get? (.text key) = none := by
        refine Option.eq_none_iff_forall_ne_some.2 fun w hw => ?_
        obtain ⟨row, hrow, hprefix⟩ := h.exists_row_of_get? hw
        exact (hapart row hrow).2 hprefix
      obtain ⟨hp, hf, hi, hrows⟩ := Value.facts_of_isLeaf hv
      refine ⟨_, rfl, h.set hkey hp (hf _) hi, rows items, [], (List.append_nil _).symm, ?_, fun hne => absurd rfl hne⟩
      rw [rows_set_of_get?_none hget, rowsBelow, hrows]
      rfl
    · rw [List.length_cons] at hdepth
      have hlength := List.length_pos_of_ne_nil hnil
      have hleaf : ∀ row ∈ rows items, row.1 ≠ [key] := fun row hrow heq =>
        (hapart row hrow).1 (heq ▸ ⟨keys, rfl⟩)
      obtain ⟨inner, front, back, hinner, hopen⟩ := h.exists_openAt hleaf
      have hbelow : ∀ row ∈ rows inner, Apart row.1 keys := fun row hrow =>
        apart_cons_iff.1 (hapart _ (cons_mem_rows hopen.rows_eq hrow))
      obtain ⟨inner', hplant, hinner', before, after, hold, hjoins⟩ := ih hnil hkeys (by omega) hinner hbelow
      have hne : rows inner' ≠ [] := by simp [hjoins.joined_eq]
      refine ⟨_, ?_, h.set_table hkey (by omega) hinner' hne, hopen.joinsAt hold hjoins⟩
      rw [hopen.plant_eq entry keys hnil, hplant, ok_bind]

end Table

end Phrasebook
