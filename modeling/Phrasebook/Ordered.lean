/-!
# Ordered maps

A map that keeps its items in the order in which their keys first came is a list of pairs.

* `Ordered.put` replaces the value of a key in its place, or adds the key at the end.
* `Ordered.get?` and `Ordered.has` look a key up.
-/

namespace Phrasebook

/-- A map whose items are in the order in which their keys first came. -/
abbrev Ordered (κ : Type) (α : Type) := List (κ × α)

namespace Ordered

variable {κ α : Type} [DecidableEq κ]

/-- The value at a key. -/
def get? (key : κ) : Ordered κ α → Option α
  | [] => none
  | (k, v) :: items => if k = key then some v else get? key items

/-- Whether a map has a key. -/
def has (key : κ) (items : Ordered κ α) : Bool := (get? key items).isSome

/-- Puts a value at a key. -/
def put (key : κ) (value : α) : Ordered κ α → Ordered κ α
  | [] => [(key, value)]
  | (k, v) :: items => if k = key then (k, value) :: items else (k, v) :: put key value items

/-- The keys in their order. -/
def keys (items : Ordered κ α) : List κ := items.map (·.1)

@[simp] theorem get?_nil (key : κ) : get? key ([] : Ordered κ α) = none := rfl

theorem mem_of_get? {key : κ} {value : α} {items : Ordered κ α} (h : get? key items = some value) :
    (key, value) ∈ items := by
  induction items with
  | nil => cases h
  | cons item items ih =>
    rw [get?] at h
    split at h
    · next hk => cases h; subst hk; exact List.mem_cons_self
    · exact List.mem_cons_of_mem _ (ih h)

/-- What was put is there, and nothing else has changed. -/
theorem get?_put (key key' : κ) (value : α) (items : Ordered κ α) :
    get? key' (put key value items) = if key = key' then some value else get? key' items := by
  induction items with
  | nil => simp [put, get?]
  | cons item items ih =>
    obtain ⟨k, v⟩ := item
    by_cases h : k = key
    · subst h; by_cases h' : k = key' <;> simp [put, get?, h']
    · by_cases h' : k = key'
      · subst h'; simp [put, get?, h, Ne.symm h]
      · simp [put, get?, h, h', ih]

/-- An item that is there after a value was put is the new one, or it was there before. -/
theorem mem_put {key : κ} {value : α} {items : Ordered κ α} {item : κ × α} (h : item ∈ put key value items) :
    item = (key, value) ∨ item ∈ items := by
  induction items with
  | nil => exact Or.inl (List.mem_singleton.1 h)
  | cons first items ih =>
    obtain ⟨k, v⟩ := first
    rw [put] at h
    split at h
    · next hk =>
      subst hk
      exact (List.mem_cons.1 h).imp_right (List.mem_cons_of_mem _)
    · rcases List.mem_cons.1 h with rfl | h
      · exact Or.inr List.mem_cons_self
      · exact (ih h).imp_right (List.mem_cons_of_mem _)

/-- A key keeps its place; a new one comes last. -/
theorem keys_put (key : κ) (value : α) (items : Ordered κ α) :
    keys (put key value items) = if key ∈ keys items then keys items else keys items ++ [key] := by
  induction items with
  | nil => simp [put, keys]
  | cons item items ih =>
    obtain ⟨k, v⟩ := item
    by_cases h : k = key
    · subst h; simp [put, keys]
    · simp only [keys] at ih
      simp only [put, h, if_false, keys, List.map_cons, ih, List.mem_cons, Ne.symm h, false_or]
      split <;> simp [*]

theorem mem_keys_put {key other : κ} {value : α} {items : Ordered κ α} :
    other ∈ keys (put key value items) ↔ other ∈ keys items ∨ other = key := by
  rw [keys_put]
  split
  · next hmem => exact ⟨Or.inl, fun h => h.elim id fun heq => heq ▸ hmem⟩
  · rw [List.mem_append, List.mem_singleton]

/-- No key comes twice in a map that values are put into. -/
theorem nodup_keys_put {key : κ} {value : α} {items : Ordered κ α} (h : (keys items).Nodup) :
    (keys (put key value items)).Nodup := by
  rw [keys_put]
  split
  · exact h
  · next hk =>
    refine List.nodup_append.2 ⟨h, List.pairwise_singleton _ key, ?_⟩
    rintro k hmem k' hk' rfl
    exact hk (List.mem_singleton.1 hk' ▸ hmem)

/-- A new key comes last with its value. -/
theorem put_of_not_mem {key : κ} {items : Ordered κ α} (h : key ∉ keys items) (value : α) :
    put key value items = items ++ [(key, value)] := by
  induction items with
  | nil => rfl
  | cons item items ih =>
    obtain ⟨k, v⟩ := item
    simp only [keys, List.map_cons, List.mem_cons, not_or] at h
    rw [put, if_neg (Ne.symm h.1), ih h.2, List.cons_append]

theorem get?_eq_none_iff {key : κ} {items : Ordered κ α} : get? key items = none ↔ key ∉ keys items := by
  induction items with
  | nil => simp [keys]
  | cons item items ih =>
    obtain ⟨k, v⟩ := item
    by_cases h : k = key
    · simp [get?, keys, h]
    · simp only [keys] at ih
      simp [get?, keys, h, Ne.symm h, ih]

theorem has_iff {key : κ} {items : Ordered κ α} : has key items = true ↔ key ∈ keys items := by
  rw [has, Option.isSome_iff_ne_none, ne_eq, get?_eq_none_iff, Decidable.not_not]

/-- A map is cut at a key that it has, and a value that is put there takes the place of the one there. -/
theorem exists_append_of_get? {key : κ} {old : α} {items : Ordered κ α} (h : get? key items = some old) :
    ∃ before after, items = before ++ (key, old) :: after ∧
      ∀ value, put key value items = before ++ (key, value) :: after := by
  induction items with
  | nil => cases h
  | cons item items ih =>
    obtain ⟨k, v⟩ := item
    rw [get?] at h
    by_cases hk : k = key
    · rw [if_pos hk] at h
      cases h
      subst hk
      exact ⟨[], items, rfl, fun value => by rw [put, if_pos rfl]; rfl⟩
    · rw [if_neg hk] at h
      obtain ⟨before, after, rfl, hput⟩ := ih h
      refine ⟨(k, v) :: before, after, rfl, fun value => ?_⟩
      rw [put, if_neg hk, hput]
      rfl

/-- In a map without a repeated key, an item is found at its key. -/
theorem get?_of_mem {key : κ} {value : α} {items : Ordered κ α} (hn : (keys items).Nodup) (h : (key, value) ∈ items) :
    get? key items = some value := by
  induction items with
  | nil => cases h
  | cons item items ih =>
    obtain ⟨k, v⟩ := item
    simp only [keys, List.map_cons, List.nodup_cons] at hn
    rcases List.mem_cons.1 h with h | h
    · cases h
      simp [get?]
    · have hk : key ∈ items.map (·.1) := List.mem_map_of_mem h
      have hne : k ≠ key := fun he => hn.1 (he ▸ hk)
      rw [get?, if_neg hne, ih hn.2 h]

end Ordered

end Phrasebook
