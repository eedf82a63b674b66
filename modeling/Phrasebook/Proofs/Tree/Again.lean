import Phrasebook.Proofs.Tree.Overlay
import Phrasebook.Proofs.Value.Denotation

/-!
# Laying a tree over again

* `Table.overlay_eq_self`: a tree whose items lie over those of another one already changes nothing.
* `Value.over_again`: so it is with a tree that has just been laid over. One that took the place of a phrase, or of
  nothing, then lies over itself.
* `Table.overlay_again`: the same of whole tables, whatever lies below.
-/

namespace Phrasebook

/-! ## Keys that stand for something -/

/-- A value that stands for something is told from others by what it stands for. -/
theorem Value.isLabel_of_denotation? {key : Value} {d : Denotation} (h : key.denotation? = some d) : key.IsLabel where
  agrees_self := (agrees_iff h).2 h
  left := fun hk _ => Bool.eq_iff_iff.2 ((agrees_iff ((agrees_iff h).1 hk)).trans (agrees_iff h).symm)
  right := fun hx _ => Bool.eq_iff_iff.2 ((agrees_iff_right ((agrees_iff h).1 hx)).trans (agrees_iff h).symm)

mutual

/-- Whether the keys of all tables in a value stand for something: they have no parts, and none of them is a double that
is not a number, which differs from itself. -/
def Value.isKeyed : Value → Bool
  | .table items => Table.isKeyed items
  | _ => true

/-- Whether the keys of a table, and of all tables in it, stand for something. -/
def Table.isKeyed : List (Value × Value) → Bool
  | [] => true
  | (k, v) :: items => k.denotation?.isSome && v.isKeyed && Table.isKeyed items

end

theorem Table.isKeyed_cons_iff {k v : Value} {items : Table} : isKeyed ((k, v) :: items) = true ↔
    (∃ d, k.denotation? = some d) ∧ v.isKeyed = true ∧ isKeyed items = true := by
  simp [isKeyed, Option.isSome_iff_exists, and_assoc]

theorem Table.isLabel_of_mem {items : Table} (h : isKeyed items = true) {item : Value × Value} (hm : item ∈ items) :
    item.1.IsLabel := by
  induction items with
  | nil => cases hm
  | cons first items ih =>
    obtain ⟨⟨d, hd⟩, -, hi⟩ := isKeyed_cons_iff.1 h
    rcases List.mem_cons.1 hm with rfl | hm
    · exact Value.isLabel_of_denotation? hd
    · exact ih hi hm

mutual

/-- The keys in a phrase tree are texts, which stand for something. -/
theorem Value.isKeyed_of_fits : ∀ (v : Value) {depth : Int}, v.fits depth = true → v.isKeyed = true := by
  intro v depth h
  cases v with
  | table items =>
    rw [Value.fits, Bool.and_eq_true] at h
    rw [Value.isKeyed]
    exact Table.isKeyed_of_fits items h.2
  | _ => rfl

/-- The keys of a phrase tree are texts, which stand for something. -/
theorem Table.isKeyed_of_fits : ∀ (items : List (Value × Value)) {depth : Int}, Table.fits depth items = true →
    Table.isKeyed items = true := by
  intro items depth h
  match items with
  | [] => rfl
  | (k, v) :: items =>
    obtain ⟨⟨hk, hv⟩, hi⟩ := Table.fits_cons_iff.1 h
    obtain ⟨key, rfl, -⟩ := Value.isKey_eq_true_iff.1 hk
    exact Table.isKeyed_cons_iff.2 ⟨⟨_, rfl⟩, v.isKeyed_of_fits hv, Table.isKeyed_of_fits items hi⟩

end

/-! ## A tree that lies there already -/

namespace Table

/-- Putting the value at a key that is there changes nothing. -/
theorem set_of_get? {items : Table} {key v : Value} (h : items.get? key = some v) : items.set key v = items := by
  induction items with
  | nil => cases h
  | cons item items ih =>
    obtain ⟨k, w⟩ := item
    rw [get?_cons] at h
    rw [set]
    split
    · next hk =>
      rw [if_pos hk] at h
      rw [Option.some.inj h]
    · next hk =>
      rw [if_neg hk] at h
      rw [ih h]

/-- A tree whose items lie over those of another one already changes nothing. -/
theorem overlay_eq_self {items base : Table}
    (h : ∀ item ∈ items, ∃ v, base.get? item.1 = some v ∧ item.2.over (some v) = v) :
    Table.overlay base items = base := by
  induction items with
  | nil => rfl
  | cons item items ih =>
    obtain ⟨k, v⟩ := item
    obtain ⟨⟨w, hget, hover⟩, h⟩ := List.forall_mem_cons.1 h
    rw [overlay, hget, hover, set_of_get? hget]
    exact ih h

/-- In a table in which no key comes twice, a value lies at its key. -/
theorem get?_of_mem {items : Table} (hp : isProper items = true) (hk : isKeyed items = true)
    {item : Value × Value} (hm : item ∈ items) : items.get? item.1 = some item.2 := by
  have hl := isLabel_of_mem hk hm
  induction items with
  | nil => cases hm
  | cons first items ih =>
    obtain ⟨k, v⟩ := first
    obtain ⟨hnew, -, hi⟩ := isProper_cons_iff.1 hp
    rw [get?_cons]
    rcases List.mem_cons.1 hm with rfl | hm
    · rw [if_pos hl.agrees_self]
    · have hno : ¬ item.1.agrees k = true := by
        intro hagrees
        have hsame := hl.left hagrees item.1
        rw [hnew item hm, hl.agrees_self] at hsame
        cases hsame
      rw [if_neg hno]
      exact ih hi (isKeyed_cons_iff.1 hk).2.2 hm

end Table

/-! ## A tree that has just been laid over -/

theorem Value.over_none (v : Value) : v.over none = v := by
  cases v <;> rfl

mutual

/-- A value that has just been laid over another one changes nothing when it is laid over again. -/
theorem Value.over_again : ∀ (v : Value), v.isProper = true → v.isKeyed = true → ∀ below : Option Value,
    v.over (some (v.over below)) = v.over below := by
  intro v hp hk below
  cases v with
  | table items =>
    rw [Value.isProper] at hp
    rw [Value.isKeyed] at hk
    have hagain := Table.over_again_of_mem items hp hk
    have hget : ∀ item ∈ items, Table.get? items item.1 = some item.2 := fun _ => Table.get?_of_mem hp hk
    rcases Value.over_table below items with ⟨base, rfl, h⟩ | ⟨-, h⟩
    · rw [h, Value.over, Table.overlay_eq_self]
      intro item hitem
      refine ⟨item.2.over (Table.get? base item.1), ?_, hagain item hitem _⟩
      rw [Table.get?_overlay_of_isLabel (Table.isLabel_of_mem hk hitem) hp, hget item hitem]
    · -- no table was below this one, so that now it lies over itself
      rw [h, Value.over, Table.overlay_eq_self]
      intro item hitem
      have hself := hagain item hitem none
      rw [Value.over_none] at hself
      exact ⟨item.2, hget item hitem, hself⟩
  | _ => rfl

/-- The same of the values of a table. -/
theorem Table.over_again_of_mem : ∀ (items : List (Value × Value)), Table.isProper items = true →
    Table.isKeyed items = true → ∀ item ∈ items, ∀ below : Option Value,
      item.2.over (some (item.2.over below)) = item.2.over below := by
  intro items hp hk item hm
  match items with
  | [] => cases hm
  | (k, v) :: items =>
    obtain ⟨-, hv, hi⟩ := Table.isProper_cons_iff.1 hp
    obtain ⟨-, hkv, hki⟩ := Table.isKeyed_cons_iff.1 hk
    rcases List.mem_cons.1 hm with rfl | hm
    · exact v.over_again hv hkv
    · exact Table.over_again_of_mem items hi hki item hm

end

/-- **A table that is laid over again changes nothing**, whatever lies below it, and not even the order of the keys. -/
theorem Table.overlay_again {items : Table} (hp : isProper items = true) (hk : isKeyed items = true) (base : Table) :
    Table.overlay (Table.overlay base items) items = Table.overlay base items := by
  have hagain := Value.over_again (.table items) hp hk (some (.table base))
  rw [Value.over, Value.over] at hagain
  exact Value.table.inj hagain

end Phrasebook
