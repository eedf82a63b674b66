import Phrasebook.Proofs.Tree.Walk
import Mathlib.Data.List.Perm.Basic
import Mathlib.Logic.Relation

/-!
# Trees in another order

Two values are equal up to the order of items if neighbouring items of tables in them can change places until the
values are equal.

* `Value.Swapped` is one such exchange, in the value itself or in a part of it, and `Value.Reordered` any number of
  them.
* `Value.reordered_table_iff`: a table is reordered exactly if its values are reordered under their keys, and then its
  items.
* An exchange keeps whether a value fits (`Swapped.fits_eq`) and rearranges its rows (`Swapped.rows_perm`). And so does
  any number of them (`Table.wellFormed_iff_of_reordered`, `Table.rows_perm_of_reordered`).
-/

namespace Phrasebook

/-! ## Exchanges -/

/-- Two neighbouring items of a table have changed places: of the value itself, of the value of one of its items, or of
an element of a list. -/
inductive Value.Swapped : Value → Value → Prop
  | here (before : Table) (x y : Value × Value) (after : Table) :
      Swapped (.table (before ++ x :: y :: after)) (.table (before ++ y :: x :: after))
  | inside {v w : Value} (before : Table) (key : Value) (after : Table) : Swapped v w →
      Swapped (.table (before ++ (key, v) :: after)) (.table (before ++ (key, w) :: after))
  | element {v w : Value} (before after : List Value) : Swapped v w →
      Swapped (.list (before ++ v :: after)) (.list (before ++ w :: after))

/-- The items of the tables in a value come in another order, at every level. -/
def Value.Reordered : Value → Value → Prop := Relation.ReflTransGen Value.Swapped

namespace Value

theorem Reordered.refl (v : Value) : v.Reordered v := Relation.ReflTransGen.refl

theorem Reordered.trans {u v w : Value} (h : u.Reordered v) (h' : v.Reordered w) : u.Reordered w :=
  Relation.ReflTransGen.trans h h'

/-- The value of one item is reordered. -/
theorem Reordered.inside {v w : Value} (before : Table) (key : Value) (after : Table) (h : v.Reordered w) :
    (Value.table (before ++ (key, v) :: after)).Reordered (.table (before ++ (key, w) :: after)) :=
  Relation.ReflTransGen.lift (fun v => Value.table (before ++ (key, v) :: after))
    (fun _ _ hs => Swapped.inside before key after hs) _ _ h

/-- The items of a table come in any other order. -/
theorem reordered_of_perm {items items' : Table} (h : items.Perm items') : ∀ before : Table,
    (Value.table (before ++ items)).Reordered (.table (before ++ items')) := by
  induction h with
  | nil => exact fun before => .refl _
  | cons x _ ih =>
    intro before
    simpa using ih (before ++ [x])
  | swap x y after => exact fun before => Relation.ReflTransGen.single (.here before y x after)
  | trans _ _ ih ih' => exact fun before => (ih before).trans (ih' before)

/-- The values of the items of a table are reordered under their keys. -/
def ReorderedBelow : Table → Table → Prop := List.Forall₂ fun x y => x.1 = y.1 ∧ x.2.Reordered y.2

theorem ReorderedBelow.refl : ∀ items : Table, ReorderedBelow items items
  | [] => .nil
  | item :: items => .cons ⟨rfl, .refl item.2⟩ (ReorderedBelow.refl items)

theorem ReorderedBelow.trans {items middle items' : Table} (h : ReorderedBelow items middle) :
    ReorderedBelow middle items' → ReorderedBelow items items' := by
  intro h'
  induction h generalizing items' with
  | nil => exact h'
  | cons hx _ ih =>
    cases h' with
    | cons hy h' => exact .cons ⟨hx.1.trans hy.1, hx.2.trans hy.2⟩ (ih h')

theorem ReorderedBelow.reordered {items items' : Table} (h : ReorderedBelow items items') : ∀ before : Table,
    (Value.table (before ++ items)).Reordered (.table (before ++ items')) := by
  induction h with
  | nil => exact fun before => .refl _
  | @cons x y items items' hx _ ih =>
    intro before
    obtain ⟨key, v⟩ := x
    obtain ⟨_, w⟩ := y
    obtain ⟨rfl, hv⟩ := hx
    refine (hv.inside before key items).trans ?_
    simpa using ih (before ++ [(key, w)])

/-- **What it takes for a table to be reordered**: its values are reordered under their keys, and then its items. -/
theorem reordered_table_iff {items : Table} {w : Value} : (Value.table items).Reordered w ↔
    ∃ middle items', ReorderedBelow items middle ∧ middle.Perm items' ∧ w = .table items' := by
  constructor
  · intro h
    induction h with
    | refl => exact ⟨items, items, .refl items, .refl items, rfl⟩
    | tail _ hs ih =>
      obtain ⟨middle, items', hm, hp, rfl⟩ := ih
      cases hs with
      | here before x y after =>
        exact ⟨middle, _, hm, hp.trans ((List.Perm.swap y x after).append_left before), rfl⟩
      | @inside v w before key after hs =>
        have hsame : ReorderedBelow (before ++ (key, v) :: after) (before ++ (key, w) :: after) :=
          List.rel_append (ReorderedBelow.refl before) (.cons ⟨rfl, .single hs⟩ (ReorderedBelow.refl after))
        -- the items are brought into their order after the exchange and not before it
        obtain ⟨middle', hm', hp'⟩ := List.perm_comp_forall₂ hp hsame
        exact ⟨middle', _, hm.trans hm', hp', rfl⟩
  · rintro ⟨middle, items', hm, hp, rfl⟩
    exact (hm.reordered []).trans (reordered_of_perm hp [])

/-! ## What an exchange keeps -/

theorem fits_table_iff {depth : Int} {items : Table} : (Value.table items).fits depth = true ↔
    1 ≤ depth ∧ ∀ item ∈ items, item.1.isKey = true ∧ item.2.fits (depth - 1) = true := by
  rw [fits, Bool.and_eq_true, decide_eq_true_iff, Table.fits_iff]

end Value

theorem Table.rows_append (items others : Table) : Table.rows (items ++ others) = rows items ++ rows others := by
  induction items with
  | nil => rfl
  | cons item items ih =>
    obtain ⟨k, v⟩ := item
    rw [List.cons_append, rows, rows, ih, List.append_assoc]

namespace Value

variable {v w : Value}

/-- An exchange keeps whether a value fits. -/
theorem Swapped.fits_eq (h : v.Swapped w) : ∀ depth : Int, v.fits depth = w.fits depth := by
  induction h with
  | here before x y after =>
    intro depth
    rw [Bool.eq_iff_iff, fits_table_iff, fits_table_iff]
    simp only [List.forall_mem_append, List.forall_mem_cons, and_left_comm]
  | inside before key after _ ih =>
    intro depth
    rw [Bool.eq_iff_iff, fits_table_iff, fits_table_iff]
    simp only [List.forall_mem_append, List.forall_mem_cons, ih]
  | element before after _ _ => exact fun depth => rfl

/-- An exchange rearranges the rows of a value that fits. -/
theorem Swapped.rows_perm (h : v.Swapped w) : ∀ {depth : Int}, v.fits depth = true → v.rows.Perm w.rows := by
  induction h with
  | here before x y after =>
    intro depth _
    simp only [rows, Table.rows_append, Table.rows]
    refine List.Perm.append_left _ ?_
    rw [← List.append_assoc, ← List.append_assoc]
    exact List.perm_append_comm.append_right _
  | inside before key after _ ih =>
    intro depth hf
    have hv := ((fits_table_iff.1 hf).2 _ (List.mem_append_right before List.mem_cons_self)).2
    simp only [rows, Table.rows_append, Table.rows]
    exact (((ih hv).map _).append_right _).append_left _
  | element before after _ _ =>
    intro depth hf
    cases hf

/-- Reordering keeps whether a value fits. -/
theorem Reordered.fits_eq (h : v.Reordered w) (depth : Int) : v.fits depth = w.fits depth := by
  induction h with
  | refl => rfl
  | tail _ hs ih => rw [ih, hs.fits_eq]

/-- Reordering rearranges the rows of a value that fits. -/
theorem Reordered.rows_perm (h : v.Reordered w) {depth : Int} (hf : v.fits depth = true) : v.rows.Perm w.rows := by
  induction h with
  | refl => exact .refl _
  | @tail u w hr hs ih =>
    have hu : u.fits depth = true := by rw [← Reordered.fits_eq hr, hf]
    exact ih.trans (hs.rows_perm hu)

end Value

namespace Table

variable {tree tree' : Table} {limit : Int}

/-- A tree is well-formed exactly if it fits. -/
theorem wellFormed_iff_fits : tree.WellFormed limit ↔ (Value.table tree).fits limit = true := by
  rw [wellFormed_iff, Value.fits, Bool.and_eq_true, decide_eq_true_iff]

/-- **Nothing is wrong in a tree exactly if nothing is in a reordered one.** -/
theorem wellFormed_iff_of_reordered (h : (Value.table tree).Reordered (.table tree')) :
    tree.WellFormed limit ↔ tree'.WellFormed limit := by
  rw [wellFormed_iff_fits, wellFormed_iff_fits, h.fits_eq]

/-- **The rows of a well-formed tree are those of a reordered one**, in some other order. -/
theorem rows_perm_of_reordered (h : (Value.table tree).Reordered (.table tree')) (hw : tree.WellFormed limit) :
    (rows tree).Perm (rows tree') :=
  h.rows_perm (wellFormed_iff_fits.1 hw)

end Table

end Phrasebook
