import Phrasebook.Fault

/-!
# Bounded stores

A store with room for a number of entries. When it is full, the oldest quarter of its entries, and at least one of
them, makes way for a new one. Using an entry does not make it younger.

* `Fifo.find?` looks an entry up, `Fifo.insert` adds one at the end.
* `Fifo.length_makeRoom_append_le`: the store never holds more entries than it has room for.
-/

namespace Phrasebook

/-- A store with room for `capacity` entries, oldest first. -/
structure Fifo (κ α : Type) where
  capacity : Nat
  entries : List (κ × α) := []
  capacity_pos : 0 < capacity
  size_le : entries.length ≤ capacity

namespace Fifo

variable {κ α : Type}

/-- An empty store. -/
def empty (capacity : Nat) (h : 0 < capacity) : Fifo κ α := ⟨capacity, [], h, by simp⟩

/-- An empty store with room for a number of entries, which has to be positive. -/
def ofCapacity (capacity : Int) : Except Fault (Fifo κ α) :=
  if h : 0 < capacity.toNat then .ok (empty capacity.toNat h) else .error .badCapacity

/-- The number of entries. -/
def size (s : Fifo κ α) : Nat := s.entries.length

/-- How many entries make way when the store is full. -/
def quota (s : Fifo κ α) : Nat := max 1 (s.capacity / 4)

/-- The entries that are left when there has to be room for one more. -/
def makeRoom (s : Fifo κ α) : List (κ × α) := if s.capacity ≤ s.size then s.entries.drop s.quota else s.entries

theorem length_makeRoom_lt (s : Fifo κ α) : s.makeRoom.length < s.capacity := by
  have := s.size_le
  have := s.capacity_pos
  by_cases h : s.capacity ≤ s.entries.length
  · simp only [makeRoom, size, quota, h, if_true, List.length_drop]; omega
  · simp only [makeRoom, size, h, if_false]; omega

theorem length_makeRoom_append_le (s : Fifo κ α) (entry : κ × α) :
    (s.makeRoom ++ [entry]).length ≤ s.capacity := by
  rw [List.length_append]
  exact s.length_makeRoom_lt

/-- Adds an entry as the youngest. -/
def insert (s : Fifo κ α) (key : κ) (value : α) : Fifo κ α :=
  { s with entries := s.makeRoom ++ [(key, value)]
           size_le := s.length_makeRoom_append_le (key, value) }

/-- The value of the oldest entry whose key fits. -/
def find? (s : Fifo κ α) (fits : κ → Bool) : Option α := (s.entries.find? fun entry => fits entry.1).map (·.2)

/-- Keeps the entries whose keys are as asked for. -/
def keep (s : Fifo κ α) (wanted : κ → Bool) : Fifo κ α :=
  { s with entries := s.entries.filter fun entry => wanted entry.1
           size_le := Nat.le_trans (List.length_filter_le _ _) s.size_le }

/-- The store without its entries. -/
def clear (s : Fifo κ α) : Fifo κ α := empty s.capacity s.capacity_pos

/-- Room is made by dropping the oldest entries. -/
theorem makeRoom_suffix (s : Fifo κ α) : s.makeRoom <:+ s.entries := by
  unfold makeRoom
  split
  · exact List.drop_suffix _ _
  · exact List.suffix_refl _

/-- Only a full store has to make room. -/
theorem makeRoom_eq (s : Fifo κ α) : s.makeRoom =
    if s.entries.length = s.capacity then s.entries.drop (max 1 (s.capacity / 4)) else s.entries := by
  have hfull : s.capacity ≤ s.entries.length ↔ s.entries.length = s.capacity := by
    have := s.size_le
    omega
  simp only [makeRoom, size, quota, hfull]

/-- Room is made by dropping entries. -/
theorem makeRoom_subset (s : Fifo κ α) : s.makeRoom ⊆ s.entries := s.makeRoom_suffix.subset

@[simp] theorem entries_insert (s : Fifo κ α) (key : κ) (value : α) :
    (s.insert key value).entries = s.makeRoom ++ [(key, value)] := rfl

/-- An entry is there after an insertion only if it was there before or is the new one. -/
theorem mem_entries_insert {s : Fifo κ α} {key : κ} {value : α} {entry : κ × α}
    (h : entry ∈ (s.insert key value).entries) : entry ∈ s.entries ∨ entry = (key, value) := by
  rcases List.mem_append.1 h with h | h
  · exact Or.inl (s.makeRoom_subset h)
  · exact Or.inr (List.mem_singleton.1 h)

theorem mem_entries_keep {s : Fifo κ α} {wanted : κ → Bool} {entry : κ × α} :
    entry ∈ (s.keep wanted).entries ↔ entry ∈ s.entries ∧ wanted entry.1 = true := List.mem_filter

/-- Keeping some entries and then some of them is keeping those that are asked for both times. -/
theorem keep_keep (s : Fifo κ α) (wanted wanted' : κ → Bool) :
    (s.keep wanted).keep wanted' = s.keep fun key => wanted key && wanted' key := by
  simp only [keep, List.filter_filter, Bool.and_comm]

/-- What is found is the value of an entry whose key fits. -/
theorem mem_entries_of_find? {s : Fifo κ α} {fits : κ → Bool} {value : α} (h : s.find? fits = some value) :
    ∃ key, (key, value) ∈ s.entries ∧ fits key = true := by
  obtain ⟨⟨key, value'⟩, he, rfl⟩ := Option.map_eq_some_iff.1 h
  have hf := List.find?_some he
  exact ⟨key, List.mem_of_find?_eq_some he, hf⟩

@[simp] theorem find?_clear (s : Fifo κ α) (fits : κ → Bool) : s.clear.find? fits = none := rfl

end Fifo

end Phrasebook
