import Phrasebook.Value.Basic

/-!
# Tables without repeated keys

Trees that are read from a file or built by a caller have no key twice (`Table.isProper`).

* `Table.isProper_cons_iff` goes along the items of a table, and `Table.isProper_of_get?` into it.
* `Table.isProper_set_of_comm`: putting a value at a key keeps the keys apart.
-/

namespace Phrasebook

mutual

/-- Whether no key comes twice in a table, nor in a table in it. -/
def Value.isProper : Value → Bool
  | .table items => Table.isProper items
  | _ => true

/-- Whether no key comes twice in the items of a table, nor in a table in them. -/
def Table.isProper : List (Value × Value) → Bool
  | [] => true
  | (k, v) :: items => (items.all fun item => !k.agrees item.1) && v.isProper && Table.isProper items

end

theorem Value.text_agrees_iff {s : String} {v : Value} : (Value.text s).agrees v = true ↔ v = .text s := by
  cases v <;> simp [Value.agrees, Value.agreesBy, Value.agreesAsScalar, eq_comm]

theorem Value.agrees_text_iff {s : String} {v : Value} : v.agrees (.text s) = true ↔ v = .text s := by
  cases v <;> simp [Value.agrees, Value.agreesBy, Value.agreesAsScalar]

theorem Value.text_agrees_comm (key : String) (v : Value) : (Value.text key).agrees v = v.agrees (.text key) :=
  Bool.eq_iff_iff.2 (Value.text_agrees_iff.trans Value.agrees_text_iff.symm)

namespace Table

theorem isProper_cons_iff {k v : Value} {items : Table} :
    isProper ((k, v) :: items) = true ↔
      (∀ item ∈ items, k.agrees item.1 = false) ∧ v.isProper = true ∧ isProper items = true := by
  simp [isProper, and_assoc]

theorem isProper_of_mem {items : Table} (h : isProper items = true) {item : Value × Value} (hm : item ∈ items) :
    item.2.isProper = true := by
  induction items with
  | nil => cases hm
  | cons first items ih =>
    obtain ⟨k, v⟩ := first
    obtain ⟨-, hv, hi⟩ := isProper_cons_iff.1 h
    rcases List.mem_cons.1 hm with rfl | hm
    · exact hv
    · exact ih hi hm

theorem mem_of_get? {items : Table} {key v : Value} (h : items.get? key = some v) :
    ∃ k, (k, v) ∈ items ∧ key.agrees k = true := by
  obtain ⟨⟨k, w⟩, hf, rfl⟩ := Option.map_eq_some_iff.1 h
  have hagrees := List.find?_some hf
  exact ⟨k, List.mem_of_find?_eq_some hf, hagrees⟩

/-- What lies at a key of a table in which no key comes twice is such a value. -/
theorem isProper_of_get? {items : Table} (h : isProper items = true) {key v : Value} (hv : items.get? key = some v) :
    v.isProper = true := by
  obtain ⟨k, hmem, -⟩ := mem_of_get? hv
  exact isProper_of_mem h hmem

/-! ## Putting values into a table -/

theorem key_of_mem_set {k v : Value} {items : Table} {item : Value × Value} (h : item ∈ items.set k v) :
    item.1 = k ∨ ∃ item' ∈ items, item'.1 = item.1 := by
  induction items with
  | nil => exact Or.inl (by rw [List.mem_singleton.1 h])
  | cons first items ih =>
    obtain ⟨k', v'⟩ := first
    rw [set] at h
    split at h
    · rcases List.mem_cons.1 h with rfl | h
      · exact Or.inr ⟨(k', v'), List.mem_cons_self, rfl⟩
      · exact Or.inr ⟨item, List.mem_cons_of_mem _ h, rfl⟩
    · rcases List.mem_cons.1 h with rfl | h
      · exact Or.inr ⟨(k', v'), List.mem_cons_self, rfl⟩
      · rcases ih h with hk | ⟨item', hmem, hkey⟩
        · exact Or.inl hk
        · exact Or.inr ⟨item', List.mem_cons_of_mem _ hmem, hkey⟩

/-- Putting a value at a key keeps keys apart that agree with it as it does with them. -/
theorem isProper_set_of_comm {items : Table} {k v : Value} (hp : isProper items = true)
    (hk : ∀ item ∈ items, item.1.agrees k = k.agrees item.1) (hv : v.isProper = true) :
    isProper (items.set k v) = true := by
  induction items with
  | nil => exact isProper_cons_iff.2 ⟨fun _ h => (by cases h), hv, rfl⟩
  | cons item items ih =>
    obtain ⟨k', v'⟩ := item
    obtain ⟨hnew, hv', hi⟩ := isProper_cons_iff.1 hp
    rw [set]
    split
    · exact isProper_cons_iff.2 ⟨hnew, hv, hi⟩
    · next hno =>
      refine isProper_cons_iff.2 ⟨?_, hv', ih hi fun item hitem => hk item (List.mem_cons_of_mem _ hitem)⟩
      intro item hitem
      rcases key_of_mem_set hitem with hkey | ⟨item', hmem, hkey⟩
      · rw [hkey, hk (k', v') List.mem_cons_self]
        exact Bool.eq_false_iff.2 hno
      · rw [← hkey]
        exact hnew item' hmem

/-- Putting a value at a text keeps keys apart. -/
theorem isProper_set_text {items : Table} (hp : isProper items = true) (key : String) {v : Value}
    (hv : v.isProper = true) : isProper (items.set (.text key) v) = true :=
  isProper_set_of_comm hp (fun item _ => (Value.text_agrees_comm key item.1).symm) hv

end Table

end Phrasebook
