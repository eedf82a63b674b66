import Phrasebook.Ordered
import Mathlib.Data.List.Induction
import Mathlib.Logic.Function.Basic

/-!
# Ordered maps of the same shape

* `Ordered.mapValues` changes the values of a map, and `Ordered.mapKeys` its keys. Putting and looking up commute with
  both, with the second one if no two keys become the same.
* `Ordered.foldl_put_of_nodup`: values that are put at different keys are the items of the map.
* `Ordered.keys_put_put_perm`: values that are put in another order leave the keys in another order at most.
-/

namespace Phrasebook.Ordered

variable {κ κ' α β : Type} [DecidableEq κ] [DecidableEq κ']

/-! ## Other values -/

/-- The map with its values changed. -/
def mapValues (f : α → β) (items : Ordered κ α) : Ordered κ β := items.map fun item => (item.1, f item.2)

omit [DecidableEq κ] in
@[simp] theorem keys_mapValues (f : α → β) (items : Ordered κ α) : (items.mapValues f).keys = items.keys := by
  simp [keys, mapValues]

@[simp] theorem get?_mapValues (f : α → β) (key : κ) (items : Ordered κ α) :
    (items.mapValues f).get? key = (items.get? key).map f := by
  induction items with
  | nil => rfl
  | cons item items ih =>
    obtain ⟨k, v⟩ := item
    have hcons : mapValues f ((k, v) :: items) = (k, f v) :: mapValues f items := rfl
    rw [hcons, get?, get?, ih]
    split <;> rfl

theorem mapValues_put (f : α → β) (key : κ) (value : α) (items : Ordered κ α) :
    (items.put key value).mapValues f = (items.mapValues f).put key (f value) := by
  induction items with
  | nil => rfl
  | cons item items ih =>
    obtain ⟨k, v⟩ := item
    have hcons : mapValues f ((k, v) :: items) = (k, f v) :: mapValues f items := rfl
    rw [hcons, put, put, ← ih]
    split <;> rfl

/-! ## Other keys -/

/-- The map with its keys changed. -/
def mapKeys (f : κ → κ') (items : Ordered κ α) : Ordered κ' α := items.map fun item => (f item.1, item.2)

theorem get?_mapKeys {f : κ → κ'} (hf : Function.Injective f) (key : κ) (items : Ordered κ α) :
    (items.mapKeys f).get? (f key) = items.get? key := by
  induction items with
  | nil => rfl
  | cons item items ih =>
    obtain ⟨k, v⟩ := item
    have hcons : mapKeys f ((k, v) :: items) = (f k, v) :: mapKeys f items := rfl
    rw [hcons, get?, get?, ih]
    simp only [hf.eq_iff]

theorem has_mapKeys {f : κ → κ'} (hf : Function.Injective f) (key : κ) (items : Ordered κ α) :
    (items.mapKeys f).has (f key) = items.has key := by
  rw [has, has, get?_mapKeys hf]

theorem mapKeys_put {f : κ → κ'} (hf : Function.Injective f) (key : κ) (value : α) (items : Ordered κ α) :
    (items.put key value).mapKeys f = (items.mapKeys f).put (f key) value := by
  induction items with
  | nil => rfl
  | cons item items ih =>
    obtain ⟨k, v⟩ := item
    have hcons : mapKeys f ((k, v) :: items) = (f k, v) :: mapKeys f items := rfl
    rw [hcons, put, put, ← ih]
    simp only [hf.eq_iff]
    split <;> rfl

/-! ## Different keys -/

/-- Values that are put at different keys are the items of the map in their order. -/
theorem foldl_put_of_nodup {γ : Type} {key : γ → κ} {value : γ → α} {xs : List γ} (hn : (xs.map key).Nodup) :
    xs.foldl (fun items x => put (key x) (value x) items) [] = xs.map fun x => (key x, value x) := by
  induction xs using List.reverseRecOn with
  | nil => rfl
  | append_singleton xs x ih =>
    rw [List.map_append, List.nodup_append] at hn
    rw [List.foldl_append, ih hn.1, List.map_append]
    refine put_of_not_mem ?_ _
    rw [keys, List.map_map]
    exact fun hmem => hn.2.2 (key x) hmem (key x) (List.mem_singleton_self _) rfl

/-! ## Putting twice -/

/-- Of two values that are put at a key the last one is there. -/
theorem put_put (key : κ) (value value' : α) (items : Ordered κ α) :
    (items.put key value).put key value' = items.put key value' := by
  induction items with
  | nil => rw [put, put, put, if_pos rfl]
  | cons item items ih =>
    obtain ⟨k, v⟩ := item
    by_cases hk : k = key
    · rw [put, if_pos hk, put, if_pos hk, put, if_pos hk]
    · rw [put, if_neg hk, put, if_neg hk, put, if_neg hk, ih]

/-- A key that is put is the first one only if there was none. -/
theorem head?_keys_put (key : κ) (value : α) (items : Ordered κ α) :
    (items.put key value).keys.head? = items.keys.head?.or (some key) := by
  cases items with
  | nil => rfl
  | cons item items =>
    obtain ⟨k, v⟩ := item
    rw [put]
    split <;> rfl

/-- Which of two keys is put first matters for their order alone. -/
theorem keys_put_put_perm (key key' : κ) (value value' : α) (items : Ordered κ α) :
    ((items.put key value).put key' value').keys.Perm ((items.put key' value').put key value).keys := by
  by_cases h : key ∈ items.keys <;> by_cases h' : key' ∈ items.keys
  · simp [keys_put, h, h']
  · simp [keys_put, h, h']
  · simp [keys_put, h, h']
  · by_cases hk : key = key'
    · simp [keys_put, hk]
    · simp only [keys_put, h, h', if_false, List.mem_append, List.mem_singleton, hk, Ne.symm hk, or_self,
        List.append_assoc]
      exact List.Perm.append_left _ (List.Perm.swap _ _ _)

end Phrasebook.Ordered
