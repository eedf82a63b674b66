import Phrasebook.Tree.Overlay
import Phrasebook.Proofs.Tree.Rows

/-!
# Trees laid over one another

* `Table.get?_overlay`: what lies at a key of two tables of which one is laid over the other.
* `Table.leafAt?_overlay`: the upper tree decides which leaf is found along some keys exactly where it touches them
  (`Table.touches`): where it defines something at their end, or has a leaf on the way there.
* `Table.fits_overlay_iff`: a tree laid over a phrase tree makes a phrase tree exactly if it is one.
* `Table.isProper_overlay`: no key comes twice in two such trees.
-/

namespace Phrasebook

/-! ## One level -/

namespace Table

/-- The first key of a table in which no key comes twice is not a key of the rest. -/
theorem get?_eq_none_of_isProper {k v : Value} {items : Table} (h : isProper ((k, v) :: items) = true) :
    Table.get? items k = none := by
  refine get?_eq_none_of_all (List.all_eq_true.2 fun item hitem => ?_)
  rw [(isProper_cons_iff.1 h).1 item hitem]
  rfl

end Table

/-- A value by which things are looked up: it equals itself, and what it equals is equal to the same values as it. -/
structure Value.IsLabel (key : Value) : Prop where
  agrees_self : key.agrees key = true
  left : ∀ {k}, key.agrees k = true → ∀ x, k.agrees x = key.agrees x
  right : ∀ {x}, key.agrees x = true → ∀ k, k.agrees x = key.agrees k

theorem Value.isLabel_text (key : String) : (Value.text key).IsLabel where
  agrees_self := text_agrees_iff.2 rfl
  left := fun hk x => by rw [text_agrees_iff.1 hk]
  right := fun hx k => by
    rw [text_agrees_iff.1 hx]
    exact Bool.eq_iff_iff.2 (agrees_text_iff.trans text_agrees_iff.symm)

namespace Table

variable {key : Value}

/-- The same lies at keys that are equal. -/
theorem get?_congr (hl : key.IsLabel) {k : Value} (hk : key.agrees k = true) (items : Table) :
    items.get? k = items.get? key := by
  have hagrees : k.agrees = key.agrees := funext (hl.left hk)
  rw [get?, get?, hagrees]

/-- What was put is there, and nothing else has changed. -/
theorem get?_set (hl : key.IsLabel) (k v : Value) (items : Table) :
    Table.get? (items.set k v) key = if key.agrees k then some v else items.get? key := by
  induction items with
  | nil => rw [set, get?_cons]
  | cons item items ih =>
    obtain ⟨k', v'⟩ := item
    rw [set, get?_cons]
    cases hk : k.agrees k' with
    | true =>
      rw [if_pos rfl, get?_cons]
      by_cases h' : key.agrees k' = true
      · simp [h', (hl.right h' k).symm.trans hk]
      · have h : ¬ key.agrees k = true := fun h => h' ((hl.left h k').symm.trans hk)
        simp [h, h']
    | false =>
      rw [if_neg Bool.false_ne_true, get?_cons, ih]
      by_cases h' : key.agrees k' = true
      · simp [h', (hl.right h' k).symm.trans hk]
      · simp [h']

theorem get?_set_text (k v : Value) (items : Table) (key : String) :
    Table.get? (items.set k v) (.text key) =
      if (Value.text key).agrees k then some v else items.get? (.text key) :=
  get?_set (Value.isLabel_text key) k v items

/-- At a key of the upper table, its value lies over that of the lower one; elsewhere the lower table is left. -/
theorem get?_overlay_of_isLabel (hl : key.IsLabel) : ∀ {items : Table}, isProper items = true → ∀ base : Table,
    Table.get? (Table.overlay base items) key =
      match items.get? key with
      | some v => some (Value.over (base.get? key) v)
      | none => base.get? key := by
  intro items hp
  induction items with
  | nil => intro base; rfl
  | cons item items ih =>
    intro base
    obtain ⟨k, v⟩ := item
    obtain ⟨-, -, hi⟩ := isProper_cons_iff.1 hp
    rw [overlay, ih hi, get?_set hl, get?_cons]
    by_cases hk : key.agrees k = true
    · simp [← get?_congr hl hk, get?_eq_none_of_isProper hp, hk]
    · simp [hk]

theorem get?_overlay (key : String) {items : Table} (hp : isProper items = true) (base : Table) :
    Table.get? (Table.overlay base items) (.text key) =
      match items.get? (.text key) with
      | some v => some (Value.over (base.get? (.text key)) v)
      | none => base.get? (.text key) :=
  get?_overlay_of_isLabel (Value.isLabel_text key) hp base

end Table

/-! ## Leaves -/

/-- Whether a value that is laid over another one decides which leaf is found along some keys: it defines something at
their end, or it has a leaf on the way there. -/
def Value.touches : List String → Value → Bool
  | [], _ => true
  | key :: keys, .table items =>
    match Table.get? items (.text key) with
    | some v => v.touches keys
    | none => false
  | _ :: _, _ => true

/-- Whether a tree that is laid over another one decides which leaf is found along some keys. -/
def Table.touches (items : Table) (keys : List String) : Bool := (Value.table items).touches keys

namespace Value

theorem leafAt?_of_not_touches {keys : List String} : ∀ {v : Value}, v.touches keys = false →
    v.leafAt? keys = none := by
  induction keys with
  | nil => intro v h; cases h
  | cons key keys ih =>
    intro v h
    cases v with
    | table items =>
      rw [touches] at h
      rw [leafAt?]
      cases hg : Table.get? items (.text key) with
      | none => rfl
      | some w =>
        rw [hg] at h
        exact ih h
    | _ => cases h

/-- A table lies over a table, or takes the place of what was there. -/
theorem over_table (below : Option Value) (items : Table) :
    (∃ base, below = some (.table base) ∧ (Value.table items).over below = .table (Table.overlay base items)) ∨
      (∀ base, below ≠ some (.table base)) ∧ (Value.table items).over below = .table items := by
  cases below with
  | none => exact Or.inr ⟨fun base h => (by cases h), by simp [Value.over]⟩
  | some b =>
    cases b with
    | table base => exact Or.inl ⟨base, rfl, by rw [Value.over]⟩
    | _ => exact Or.inr ⟨fun base h => (by cases h), by simp [Value.over]⟩

/-- The leaf along some keys is that of the upper value where this touches the keys, and else that of the lower one. -/
theorem leafAt?_over {keys : List String} : ∀ {v : Value} (below : Option Value), v.isProper = true →
    (v.over below).leafAt? keys = if v.touches keys then v.leafAt? keys else below.bind (leafAt? keys) := by
  induction keys with
  | nil =>
    intro v below _
    rw [touches, if_pos rfl]
    cases v with
    | table items =>
      rcases over_table below items with ⟨base, -, h⟩ | ⟨-, h⟩
      · rw [h]
        rfl
      · rw [h]
    | _ => rfl
  | cons key keys ih =>
    intro v below hp
    cases v with
    | table items =>
      rw [isProper] at hp
      rcases over_table below items with ⟨base, rfl, h⟩ | ⟨hno, h⟩
      · rw [h, leafAt?, Table.get?_overlay key hp, touches, leafAt?, Option.bind_some, leafAt?]
        cases hg : Table.get? items (.text key) with
        | none => simp
        | some w => exact ih _ (Table.isProper_of_get? hp hg)
      · rw [h]
        -- nothing lies below the table but perhaps a leaf, along which no keys lead
        have hbelow : below.bind (leafAt? (key :: keys)) = none := by
          cases below with
          | none => rfl
          | some b =>
            cases b with
            | table base => exact absurd rfl (hno base)
            | _ => rfl
        rw [hbelow]
        split
        · rfl
        · next ht => exact leafAt?_of_not_touches (by simpa using ht)
    | _ => rfl

end Value

/-- **The upper tree decides where it touches.** Along some keys a leaf of the upper tree is found where it touches
them, and else the leaf of the lower tree. -/
theorem Table.leafAt?_overlay {base items : Table} (hp : isProper items = true) (keys : List String) :
    (Table.overlay base items).leafAt? keys =
      if items.touches keys then items.leafAt? keys else base.leafAt? keys :=
  Value.leafAt?_over (v := .table items) (some (.table base)) hp

/-! ## Phrase trees -/

namespace Table

variable {depth : Int}

theorem fits_cons_iff {k v : Value} {items : Table} :
    fits depth ((k, v) :: items) = true ↔
      (k.isKey = true ∧ v.fits (depth - 1) = true) ∧ fits depth items = true := by
  simp [fits]

theorem fits_of_mem {items : Table} (h : fits depth items = true) {item : Value × Value} (hm : item ∈ items) :
    item.1.isKey = true ∧ item.2.fits (depth - 1) = true := fits_iff.1 h item hm

/-- What lies at a key of a phrase tree fits below it. -/
theorem fits_of_get? {items : Table} (h : fits depth items = true) {key v : Value} (hv : items.get? key = some v) :
    v.fits (depth - 1) = true := by
  obtain ⟨k, hmem, -⟩ := mem_of_get? hv
  exact (fits_of_mem h hmem).2

/-- Putting a phrase or a phrase tree at a key leaves a phrase tree. -/
theorem fits_set {items : Table} (h : fits depth items = true) {k v : Value} (hk : k.isKey = true)
    (hv : v.fits (depth - 1) = true) : fits depth (items.set k v) = true := by
  induction items with
  | nil => exact fits_cons_iff.2 ⟨⟨hk, hv⟩, rfl⟩
  | cons item items ih =>
    obtain ⟨k', v'⟩ := item
    obtain ⟨⟨hk', hv'⟩, hi⟩ := fits_cons_iff.1 h
    rw [set]
    split
    · exact fits_cons_iff.2 ⟨⟨hk', hv⟩, hi⟩
    · exact fits_cons_iff.2 ⟨⟨hk', hv'⟩, ih hi⟩

theorem exists_mem_set (k v : Value) (items : Table) :
    (∀ item ∈ items, ∃ item' ∈ items.set k v, item'.1 = item.1) ∧
      ∃ item' ∈ items.set k v, item'.1 = k ∨ k.agrees item'.1 = true := by
  induction items with
  | nil => exact ⟨fun _ h => (by cases h), (k, v), List.mem_singleton_self _, Or.inl rfl⟩
  | cons item items ih =>
    obtain ⟨k', v'⟩ := item
    rw [set]
    split
    · next hk =>
      refine ⟨?_, (k', v), List.mem_cons_self, Or.inr hk⟩
      intro item hitem
      rcases List.mem_cons.1 hitem with rfl | hitem
      · exact ⟨(k', v), List.mem_cons_self, rfl⟩
      · exact ⟨item, List.mem_cons_of_mem _ hitem, rfl⟩
    · obtain ⟨hall, item', hmem, hkey⟩ := ih
      refine ⟨?_, item', List.mem_cons_of_mem _ hmem, hkey⟩
      intro item hitem
      rcases List.mem_cons.1 hitem with rfl | hitem
      · exact ⟨(k', v'), List.mem_cons_self, rfl⟩
      · obtain ⟨item', hmem', hkey'⟩ := hall item hitem
        exact ⟨item', List.mem_cons_of_mem _ hmem', hkey'⟩

/-- The keys of the lower table stay. -/
theorem exists_mem_overlay {items : Table} : ∀ {base : Table}, ∀ item ∈ base,
    ∃ item' ∈ Table.overlay base items, item'.1 = item.1 := by
  induction items with
  | nil => exact fun item h => ⟨item, h, rfl⟩
  | cons first items ih =>
    intro base item hitem
    obtain ⟨k, v⟩ := first
    obtain ⟨item', hmem, hkey⟩ := (exists_mem_set k (Value.over (base.get? k) v) base).1 item hitem
    obtain ⟨item'', hmem', hkey'⟩ := ih item' hmem
    exact ⟨item'', hmem', hkey'.trans hkey⟩

end Table

mutual

/-- A value that fits and lies over another one that fits makes one that fits. -/
theorem Value.fits_over : ∀ (v : Value) {depth : Int} {below : Option Value},
    (∀ b, below = some b → b.fits depth = true) → v.fits depth = true → (v.over below).fits depth = true := by
  intro v depth below hb hv
  cases v with
  | table items =>
    rcases Value.over_table below items with ⟨base, rfl, h⟩ | ⟨-, h⟩
    · have hbase := hb _ rfl
      rw [Value.fits, Bool.and_eq_true] at hbase hv
      rw [h, Value.fits, Bool.and_eq_true]
      exact ⟨hv.1, Table.fits_overlay items hbase.2 hv.2⟩
    · rw [h]
      exact hv
  | _ => exact hv

/-- A phrase tree laid over a phrase tree makes a phrase tree. -/
theorem Table.fits_overlay : ∀ (items : List (Value × Value)) {depth : Int} {base : Table},
    Table.fits depth base = true → Table.fits depth items = true →
      Table.fits depth (Table.overlay base items) = true := by
  intro items depth base hb hi
  match items with
  | [] => exact hb
  | (k, v) :: items =>
    obtain ⟨⟨hk, hv⟩, hi⟩ := Table.fits_cons_iff.1 hi
    rw [Table.overlay]
    exact Table.fits_overlay items (Table.fits_set hb hk (v.fits_over (fun _ => Table.fits_of_get? hb) hv)) hi

end

mutual

/-- A value that lies over another one that fits, and makes one that fits, fits itself. -/
theorem Value.fits_of_over : ∀ (v : Value) {depth : Int} {below : Option Value}, v.isProper = true →
    (∀ b, below = some b → b.fits depth = true) → (v.over below).fits depth = true → v.fits depth = true := by
  intro v depth below hp hb h
  cases v with
  | table items =>
    rcases Value.over_table below items with ⟨base, rfl, ho⟩ | ⟨-, ho⟩
    · have hbase := hb _ rfl
      rw [ho] at h
      rw [Value.isProper] at hp
      rw [Value.fits, Bool.and_eq_true] at hbase h ⊢
      exact ⟨h.1, Table.fits_of_overlay items hp hbase.2 h.2⟩
    · rw [ho] at h
      exact h
  | _ => exact h

/-- A tree that laid over a phrase tree makes a phrase tree is one itself. -/
theorem Table.fits_of_overlay : ∀ (items : List (Value × Value)) {depth : Int} {base : Table},
    Table.isProper items = true → Table.fits depth base = true → Table.fits depth (Table.overlay base items) = true →
      Table.fits depth items = true := by
  intro items depth base hp hb h
  match items with
  | [] => rfl
  | (k, v) :: items =>
    obtain ⟨-, hv, hi⟩ := Table.isProper_cons_iff.1 hp
    have hbelow : ∀ b, base.get? k = some b → b.fits (depth - 1) = true := fun _ => Table.fits_of_get? hb
    -- the key is still there when all is laid over, or one that it agrees with, so it is the key of a phrase
    have hk : k.isKey = true := by
      obtain ⟨item, hmem, hkey⟩ := (Table.exists_mem_set k (Value.over (base.get? k) v) base).2
      obtain ⟨item', hmem', hkey'⟩ : ∃ item' ∈ Table.overlay _ items, item'.1 = item.1 :=
        Table.exists_mem_overlay item hmem
      have hfits := (Table.fits_of_mem h hmem').1
      rw [hkey'] at hfits
      rcases hkey with rfl | hagrees
      · exact hfits
      · obtain ⟨key, he, hkeys⟩ := Value.isKey_eq_true_iff.1 hfits
        rw [he, Value.agrees_text_iff] at hagrees
        rw [hagrees]
        exact hkeys
    obtain ⟨key, rfl, -⟩ := Value.isKey_eq_true_iff.1 hk
    -- no later item has the key, so its value is still there as well
    have hover : (Value.over (base.get? (.text key)) v).fits (depth - 1) = true := by
      have hget : Table.get? (Table.overlay base ((.text key, v) :: items)) (.text key) =
          some (Value.over (base.get? (.text key)) v) := by
        rw [Table.overlay, Table.get?_overlay key hi, Table.get?_eq_none_of_isProper hp, Table.get?_set_text,
          if_pos (Value.text_agrees_iff.2 rfl)]
      exact Table.fits_of_get? h hget
    refine Table.fits_cons_iff.2 ⟨⟨hk, v.fits_of_over hv hbelow hover⟩, ?_⟩
    rw [Table.overlay] at h
    exact Table.fits_of_overlay items hi (Table.fits_set hb hk hover) h

end

/-- **Laying over cannot spoil what was there.** What a tree makes when it is laid over a phrase tree is a phrase tree
exactly if it is one itself. -/
theorem Table.fits_overlay_iff {depth : Int} {base items : Table} (hp : isProper items = true)
    (hb : fits depth base = true) : fits depth (Table.overlay base items) = true ↔ fits depth items = true :=
  ⟨fits_of_overlay items hp hb, fits_overlay items hb⟩

/-! ## Keys that come once -/

/-- Putting a value at a key keeps the keys apart that are keys of phrases. -/
theorem Table.isProper_set {depth : Int} {items : Table} (hf : fits depth items = true) (hp : isProper items = true)
    (k : Value) {v : Value} (hv : v.isProper = true) : isProper (items.set k v) = true := by
  refine isProper_set_of_comm hp (fun item hitem => ?_) hv
  obtain ⟨key, hkey, -⟩ := Value.isKey_eq_true_iff.1 (fits_of_mem hf hitem).1
  rw [hkey]
  exact Value.text_agrees_comm key k

mutual

/-- No key comes twice in a value that lies over another one. -/
theorem Value.isProper_over : ∀ (v : Value) {depth : Int} {below : Option Value},
    (∀ b, below = some b → b.fits depth = true ∧ b.isProper = true) → v.fits depth = true → v.isProper = true →
      (v.over below).isProper = true := by
  intro v depth below hb hf hp
  cases v with
  | table items =>
    rcases Value.over_table below items with ⟨base, rfl, h⟩ | ⟨-, h⟩
    · obtain ⟨hfb, hpb⟩ := hb _ rfl
      rw [Value.fits, Bool.and_eq_true] at hfb hf
      rw [Value.isProper] at hpb hp
      rw [h, Value.isProper]
      exact Table.isProper_overlay items hfb.2 hpb hf.2 hp
    · rw [h]
      exact hp
  | _ => exact hp

/-- No key comes twice in a phrase tree that is laid over another one. -/
theorem Table.isProper_overlay : ∀ (items : List (Value × Value)) {depth : Int} {base : Table},
    Table.fits depth base = true → Table.isProper base = true → Table.fits depth items = true →
      Table.isProper items = true → Table.isProper (Table.overlay base items) = true := by
  intro items depth base hfb hpb hf hp
  match items with
  | [] => exact hpb
  | (k, v) :: items =>
    obtain ⟨⟨hk, hfv⟩, hfi⟩ := Table.fits_cons_iff.1 hf
    obtain ⟨-, hpv, hpi⟩ := Table.isProper_cons_iff.1 hp
    have hbelow : ∀ b, base.get? k = some b → b.fits (depth - 1) = true ∧ b.isProper = true := fun _ hget =>
      ⟨Table.fits_of_get? hfb hget, Table.isProper_of_get? hpb hget⟩
    have hfits := v.fits_over (fun b hget => (hbelow b hget).1) hfv
    have hproper := v.isProper_over hbelow hfv hpv
    rw [Table.overlay]
    exact Table.isProper_overlay items (Table.fits_set hfb hk hfits) (Table.isProper_set hfb hpb k hproper) hfi hpi

end

end Phrasebook
