import Phrasebook.Shelf

/-!
# What a shelf holds

A shelf is sound (`Shelf.Sound`) for the phrase trees that things have at present when every catalog on it is that of
the present tree of its thing.

* A consultation gives the catalog that is held (`consult_of_held`), or makes one and holds it (`consult_of_ok`), or
  fails and leaves the shelf alone (`consult_of_error`); there is nothing else that it can do (`consult_cases`).
* Asking a sound shelf gives the catalog that is made of the tree afresh, whether it was held or not
  (`outcome_consult`), and leaves it sound (`Sound.consult`).
-/

namespace Phrasebook

/-- The oldest entry with a key is found like the value at the key of a map. -/
theorem Fifo.find?_eq_get? {κ α : Type} [DecidableEq κ] (s : Fifo κ α) (key : κ) :
    s.find? (· = key) = Ordered.get? key s.entries := by
  unfold Fifo.find?
  induction s.entries with
  | nil => rfl
  | cons entry entries ih =>
    obtain ⟨k, v⟩ := entry
    rw [List.find?_cons, Ordered.get?, ← ih]
    by_cases h : k = key <;> simp [h]

namespace Shelf

variable {κ : Type} [DecidableEq κ] {s : Shelf κ} {trees : κ → Option Table}

/-! ## What a consultation does -/

/-- A catalog that is held is given as it is, whatever the tree is at present. -/
theorem consult_of_held {key : κ} {issue : Issue} (h : Ordered.get? key s.held.entries = some issue) (tree : Table) :
    s.consult key tree = (s, pure issue) := by
  unfold consult
  rw [Fifo.find?_eq_get?, h]

/-- A tree without a catalog changes nothing. -/
theorem consult_of_error {key : κ} {tree : Table} {fault : Fault} (h : Ordered.get? key s.held.entries = none)
    (hc : (Catalog.ofTable s.options tree).outcome = .error fault) :
    s.consult key tree = (s, ⟨(Catalog.ofTable s.options tree).findings, .error fault⟩) := by
  unfold consult
  rw [Fifo.find?_eq_get?, h]
  simp only [hc]

/-- The shelf with a catalog that has been made for a key. -/
def add (s : Shelf κ) (key : κ) (catalog : Catalog) : Shelf κ :=
  { s with held := s.held.insert key ⟨s.made, catalog⟩, made := s.made + 1 }

/-- A catalog that is not held is made of the present tree, and held. -/
theorem consult_of_ok {key : κ} {tree : Table} {catalog : Catalog} (h : Ordered.get? key s.held.entries = none)
    (hc : (Catalog.ofTable s.options tree).outcome = .ok catalog) :
    s.consult key tree =
      (s.add key catalog, ⟨(Catalog.ofTable s.options tree).findings, .ok ⟨s.made, catalog⟩⟩) := by
  unfold consult
  rw [Fifo.find?_eq_get?, h]
  simp only [hc]
  rfl

/-- **All that a consultation can do.** -/
theorem consult_cases (s : Shelf κ) (key : κ) (tree : Table) :
    (∃ issue, Ordered.get? key s.held.entries = some issue ∧ s.consult key tree = (s, pure issue)) ∨
      Ordered.get? key s.held.entries = none ∧
        ((∃ fault, (Catalog.ofTable s.options tree).outcome = .error fault ∧
            s.consult key tree = (s, ⟨(Catalog.ofTable s.options tree).findings, .error fault⟩)) ∨
          ∃ catalog, (Catalog.ofTable s.options tree).outcome = .ok catalog ∧
            s.consult key tree =
              (s.add key catalog, ⟨(Catalog.ofTable s.options tree).findings, .ok ⟨s.made, catalog⟩⟩)) := by
  cases h : Ordered.get? key s.held.entries with
  | some issue => exact Or.inl ⟨issue, rfl, consult_of_held h tree⟩
  | none =>
    refine Or.inr ⟨rfl, ?_⟩
    cases hc : (Catalog.ofTable s.options tree).outcome with
    | error fault => exact Or.inl ⟨fault, rfl, consult_of_error h hc⟩
    | ok catalog => exact Or.inr ⟨catalog, rfl, consult_of_ok h hc⟩

/-! ## Sound shelves -/

/-- Every catalog on the shelf is that of the tree that its thing has. -/
def Sound (s : Shelf κ) (trees : κ → Option Table) : Prop :=
  ∀ key issue, (key, issue) ∈ s.held.entries →
    ∃ tree, trees key = some tree ∧ (Catalog.ofTable s.options tree).outcome = .ok issue.catalog

omit [DecidableEq κ] in
@[simp] theorem clear_clear (s : Shelf κ) : s.clear.clear = s.clear := rfl

omit [DecidableEq κ] in
/-- A shelf without catalogs is sound. -/
theorem Sound.clear (s : Shelf κ) (trees : κ → Option Table) : s.clear.Sound trees := by
  intro key issue h
  cases h

@[simp] theorem options_consult (s : Shelf κ) (key : κ) (tree : Table) :
    (s.consult key tree).1.options = s.options := by
  unfold consult
  split
  · rfl
  · dsimp only
    split <;> rfl

/-- A catalog that is on the shelf after a consultation was there before, or it was made of the tree. -/
theorem mem_held_consult {key key' : κ} {tree : Table} {issue : Issue}
    (h : (key', issue) ∈ (s.consult key tree).1.held.entries) :
    (key', issue) ∈ s.held.entries ∨
      key' = key ∧ (Catalog.ofTable s.options tree).outcome = .ok issue.catalog := by
  unfold consult at h
  split at h
  · exact Or.inl h
  · dsimp only at h
    split at h
    · exact Or.inl h
    · next catalog hc =>
      rcases Fifo.mem_entries_insert h with h | h
      · exact Or.inl h
      · cases h
        exact Or.inr ⟨rfl, hc⟩

/-- Consulting a sound shelf about a thing and its present tree leaves it sound. -/
theorem Sound.consult (hs : s.Sound trees) {key : κ} {tree : Table} (ht : trees key = some tree) :
    (s.consult key tree).1.Sound trees := by
  intro key' issue h
  rw [options_consult]
  rcases mem_held_consult h with h | ⟨rfl, hc⟩
  · exact hs key' issue h
  · exact ⟨tree, ht, hc⟩

/-- A sound shelf gives the catalog of the present tree. -/
theorem outcome_consult (hs : s.Sound trees) {key : κ} {tree : Table} (ht : trees key = some tree) :
    (s.consult key tree).2.outcome.map Issue.catalog = (Catalog.ofTable s.options tree).outcome := by
  unfold Shelf.consult
  split
  · next issue hf =>
    obtain ⟨key', hm, hk⟩ := Fifo.mem_entries_of_find? hf
    obtain rfl := of_decide_eq_true hk
    obtain ⟨tree', ht', hc⟩ := hs key' issue hm
    obtain rfl := Option.some.inj (ht.symm.trans ht')
    exact hc.symm
  · dsimp only
    split
    · next fault hc => rw [hc]; rfl
    · next catalog hc => rw [hc]; rfl

end Shelf

end Phrasebook
