import Phrasebook.Tree.Leaves
import Phrasebook.Value.Proper
import Phrasebook.Proofs.Audit

/-!
# The paths of the leaves

Trees that are read from a file or built by a caller have no key twice (`Table.isProper`).

* `exists_keys_of_mem_leavesBelow`: the path of a leaf below some keys is made of them and of more keys.
* `nodup_paths_leaves`: no two leaves of such a tree have the same path.
-/

namespace Phrasebook

/-- The leaves of a value that is not a table are itself. -/
theorem Value.leavesBelow_eq_ok {limit : Int} {trail : List String} {v : Value} {entries : List Entry}
    (h : v.leavesBelow limit trail = .ok entries) :
    (∃ items, v = .table items ∧ Table.leavesBelow limit trail items = .ok entries) ∨
      v.isLeaf = true ∧ entries = [⟨Path.join trail, v⟩] := by
  unfold Value.leavesBelow at h
  split at h
  · next items =>
    split at h
    · cases h
    · exact Or.inl ⟨items, rfl, h⟩
  · split at h
    · next hl => cases h; exact Or.inr ⟨hl, rfl⟩
    · cases h

/-- The leaves of an item come before those of the items behind it, and its key is a text without dots. -/
theorem Table.leavesBelow_cons_eq_ok {limit : Int} {trail : List String} {k v : Value} {items : Table}
    {entries : List Entry} (h : Table.leavesBelow limit trail ((k, v) :: items) = .ok entries) :
    ∃ key here rest, k = .text key ∧ Path.isKey key = true ∧ v.leavesBelow limit (trail ++ [key]) = .ok here ∧
      Table.leavesBelow limit trail items = .ok rest ∧ entries = here ++ rest := by
  cases k with
  | text key =>
    rw [Table.leavesBelow] at h
    split at h
    · next hk =>
      obtain ⟨here, hh, h⟩ := bind_eq_ok_iff.1 h
      obtain ⟨rest, hr, h⟩ := bind_eq_ok_iff.1 h
      cases h
      exact ⟨key, here, rest, rfl, hk, hh, hr, rfl⟩
    · cases h
  | _ => simp [Table.leavesBelow] at h

mutual

/-- The path of a leaf of a value below some keys is made of them and of more keys. -/
theorem Value.exists_keys_of_mem_leavesBelow {limit : Int} : ∀ (v : Value) {trail : List String}
    {entries : List Entry}, v.leavesBelow limit trail = .ok entries → ∀ entry ∈ entries,
      ∃ keys, (∀ key ∈ keys, Path.isKey key = true) ∧ entry.path = Path.join (trail ++ keys) := by
  intro v trail entries h entry he
  rcases v.leavesBelow_eq_ok h with ⟨items, rfl, hi⟩ | ⟨-, rfl⟩
  · obtain ⟨key, -, keys, hk, hp⟩ := Table.exists_keys_of_mem_leavesBelow items hi entry he
    exact ⟨key :: keys, hk, hp⟩
  · rw [List.mem_singleton] at he
    refine ⟨[], by simp, ?_⟩
    rw [he, List.append_nil]

/-- The path of a leaf of some items below some keys is made of them, of the key of an item, and of more keys. -/
theorem Table.exists_keys_of_mem_leavesBelow {limit : Int} : ∀ (items : List (Value × Value)) {trail : List String}
    {entries : List Entry}, Table.leavesBelow limit trail items = .ok entries → ∀ entry ∈ entries,
      ∃ key, .text key ∈ items.map (·.1) ∧ ∃ keys, (∀ k ∈ key :: keys, Path.isKey k = true) ∧
        entry.path = Path.join (trail ++ key :: keys) := by
  intro items trail entries h entry he
  match items with
  | [] => cases h; cases he
  | (k, v) :: items =>
    obtain ⟨key, here, rest, rfl, hk, hh, hr, rfl⟩ := Table.leavesBelow_cons_eq_ok h
    rcases List.mem_append.1 he with he | he
    · obtain ⟨keys, hks, hp⟩ := v.exists_keys_of_mem_leavesBelow hh entry he
      refine ⟨key, by simp, keys, List.forall_mem_cons.2 ⟨hk, hks⟩, ?_⟩
      rw [hp, List.append_assoc, List.singleton_append]
    · obtain ⟨key', hkey', keys, hks, hp⟩ := Table.exists_keys_of_mem_leavesBelow items hr entry he
      exact ⟨key', List.mem_cons_of_mem _ hkey', keys, hks, hp⟩

end

theorem Value.agrees_text (s t : String) : (Value.text s).agrees (.text t) = decide (s = t) := by
  simp [Value.agrees, Value.agreesBy, Value.agreesAsScalar]

/-- A leaf below one key has another path than a leaf below another one. -/
theorem Table.paths_disjoint {limit : Int} {trail : List String} {key : String} {v : Value} {items : Table}
    {here rest : List Entry} (ht : ∀ k ∈ trail, Path.isKey k = true) (hk : Path.isKey key = true)
    (hnew : ∀ item ∈ items, (Value.text key).agrees item.1 = false)
    (hh : v.leavesBelow limit (trail ++ [key]) = .ok here) (hr : Table.leavesBelow limit trail items = .ok rest) :
    ∀ e ∈ here, ∀ e' ∈ rest, e.path ≠ e'.path := by
  intro e he e' he' hpath
  obtain ⟨keys, hks, hp⟩ := v.exists_keys_of_mem_leavesBelow hh e he
  obtain ⟨key', hkey', keys', hks', hp'⟩ := Table.exists_keys_of_mem_leavesBelow items hr e' he'
  have hall : ∀ k ∈ trail ++ key :: keys, Path.isKey k = true :=
    List.forall_mem_append.2 ⟨ht, List.forall_mem_cons.2 ⟨hk, hks⟩⟩
  have hall' : ∀ k ∈ trail ++ key' :: keys', Path.isKey k = true := List.forall_mem_append.2 ⟨ht, hks'⟩
  have hjoin : Path.join (trail ++ key :: keys) = Path.join (trail ++ key' :: keys') := by
    rw [← hp', ← hpath, hp, List.append_assoc, List.singleton_append]
  have hlists := (Path.join_inj (by simp) (by simp) hall hall').1 hjoin
  have hkeys : key = key' := (List.cons.inj (List.append_cancel_left hlists)).1
  obtain ⟨item, hitem, hi⟩ := List.mem_map.1 hkey'
  have hno := hnew item hitem
  rw [hi, Value.agrees_text, hkeys] at hno
  simp at hno

mutual

/-- No two leaves of a value below some keys have the same path. -/
theorem Value.nodup_paths_leavesBelow {limit : Int} : ∀ (v : Value) {trail : List String} {entries : List Entry},
    v.isProper = true → (∀ key ∈ trail, Path.isKey key = true) → v.leavesBelow limit trail = .ok entries →
      (entries.map Entry.path).Nodup := by
  intro v trail entries hv ht h
  rcases v.leavesBelow_eq_ok h with ⟨items, rfl, hi⟩ | ⟨-, rfl⟩
  · rw [Value.isProper] at hv
    exact Table.nodup_paths_leavesBelow items hv ht hi
  · simp

/-- No two leaves of some items below some keys have the same path. -/
theorem Table.nodup_paths_leavesBelow {limit : Int} : ∀ (items : List (Value × Value)) {trail : List String}
    {entries : List Entry}, Table.isProper items = true → (∀ key ∈ trail, Path.isKey key = true) →
      Table.leavesBelow limit trail items = .ok entries → (entries.map Entry.path).Nodup := by
  intro items trail entries hp ht h
  match items with
  | [] => cases h; exact List.nodup_nil
  | (k, v) :: items =>
    obtain ⟨key, here, rest, rfl, hk, hh, hr, rfl⟩ := Table.leavesBelow_cons_eq_ok h
    rw [Table.isProper, Bool.and_eq_true, Bool.and_eq_true, List.all_eq_true] at hp
    obtain ⟨⟨hnew, hv⟩, hi⟩ := hp
    have hnew' : ∀ item ∈ items, (Value.text key).agrees item.1 = false := by
      intro item hitem
      simpa using hnew item hitem
    have ht' : ∀ k ∈ trail ++ [key], Path.isKey k = true :=
      List.forall_mem_append.2 ⟨ht, List.forall_mem_singleton.2 hk⟩
    rw [List.map_append, List.nodup_append]
    refine ⟨v.nodup_paths_leavesBelow hv ht' hh, Table.nodup_paths_leavesBelow items hi ht hr, ?_⟩
    intro p hmem p' hmem'
    obtain ⟨e, he, rfl⟩ := List.mem_map.1 hmem
    obtain ⟨e', he', rfl⟩ := List.mem_map.1 hmem'
    exact Table.paths_disjoint ht hk hnew' hh hr e he e' he'

end

/-- **No path leads to two leaves.** The leaves of a tree in which no key comes twice have different paths. -/
theorem Table.nodup_paths_leaves {limit : Int} {tree : Table} {entries : List Entry} (ht : Table.isProper tree = true)
    (h : tree.leaves limit = .ok entries) : (entries.map Entry.path).Nodup := by
  refine Value.nodup_paths_leavesBelow (.table tree) ?_ (by simp) h
  rw [Value.isProper]
  exact ht

end Phrasebook
