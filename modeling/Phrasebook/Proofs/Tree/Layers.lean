import Phrasebook.Proofs.Scope.Prefix
import Phrasebook.Proofs.Tree.Overlay

/-!
# The leaves of a tree in two layers

A phrase tree that is laid over another one hides the leaves of the lower one at some paths, and shows them at all the
others.

* `Table.at?` is what a tree has along some keys, be it a leaf or a table.
* `Table.touches_eq_false_iff`: a tree leaves alone what lies along some keys if it has nothing there and no leaf on the
  way.
* `Table.mem_leaves_overlay_iff`: which leaves the two layers have together, path by path.
-/

namespace Phrasebook

/-! ## What a tree has along some keys -/

/-- What is found from a value along some keys. -/
def Value.at? : List String → Value → Option Value
  | [], v => some v
  | key :: keys, .table items => (Table.get? items (.text key)).bind (at? keys)
  | _ :: _, _ => none

/-- What a tree has along some keys, a leaf or a table. -/
def Table.at? (items : Table) (keys : List String) : Option Value := (Value.table items).at? keys

/-- A value that is laid over another one leaves alone what lies along some keys exactly if it has nothing at their end,
and no leaf on the way there. -/
theorem Value.touches_eq_false_iff {keys : List String} : ∀ {v : Value}, v.touches keys = false ↔
    v.at? keys = none ∧ ∀ before more, more ≠ [] → keys = before ++ more → v.leafAt? before = none := by
  induction keys with
  | nil =>
    intro v
    simp [touches, at?]
  | cons key keys ih =>
    intro v
    cases v with
    | table items =>
      rw [touches, at?]
      cases hget : Table.get? items (.text key) with
      | none =>
        refine iff_of_true rfl ⟨rfl, fun before more _ hkeys => ?_⟩
        cases before with
        | nil => rfl
        | cons first before => rw [← (List.cons.inj hkeys).1, leafAt?, hget, Option.bind_none]
      | some w =>
        refine ih.trans (and_congr_right fun _ => ?_)
        constructor
        · intro h before more hm hkeys
          cases before with
          | nil => rfl
          | cons first before =>
            obtain ⟨rfl, hrest⟩ := List.cons.inj hkeys
            rw [leafAt?, hget, Option.bind_some]
            exact h before more hm hrest
        · intro h before more hm hkeys
          have hleaf := h (key :: before) more hm (by rw [hkeys, List.cons_append])
          rwa [leafAt?, hget, Option.bind_some] at hleaf
    | _ =>
      -- a leaf lies on the way to whatever has a key
      refine iff_of_false (by simp [touches]) fun h => ?_
      cases h.2 [] (key :: keys) (List.cons_ne_nil _ _) rfl

namespace Table

variable {limit : Int} {base items : Table} {lower upper merged : List Entry}

/-- A tree leaves alone what lies along some keys exactly if it has nothing at their end, and no leaf on the way. -/
theorem touches_eq_false_iff {keys : List String} : items.touches keys = false ↔
    items.at? keys = none ∧ ∀ before more, more ≠ [] → keys = before ++ more → items.leafAt? before = none :=
  Value.touches_eq_false_iff

/-- The same in terms of the leaves of the tree and their paths. -/
theorem touches_segments_eq_false_iff (hp : isProper items = true) (hu : items.leaves limit = .ok upper)
    {path : String} : items.touches (Path.segments path) = false ↔
      items.at? (Path.segments path) = none ∧ ∀ entry ∈ upper, ¬ Path.Below entry.path path := by
  rw [touches_eq_false_iff]
  refine and_congr_right fun _ => ⟨?_, ?_⟩
  · intro h entry he hbelow
    obtain ⟨more, hm, hsegments⟩ := Path.below_iff.1 hbelow
    have hleaf := (mem_leaves_iff hp hu).1 he
    rw [h _ more hm hsegments] at hleaf
    cases hleaf
  · intro h before more hm hsegments
    refine Option.eq_none_iff_forall_ne_some.2 fun value hleaf => ?_
    -- the leaf comes from a row, whose keys are those of its path
    obtain ⟨⟨-, hfits⟩, -⟩ := leaves_eq_ok_iff.1 hu
    obtain ⟨hne, hkeys⟩ := isKey_of_mem_rows items hfits _ ((mem_rows_iff items hp hfits).2 hleaf)
    have hbefore : Path.segments (Path.join before) = before := Path.segments_join hne hkeys
    have hmem : ⟨Path.join before, value⟩ ∈ upper := (mem_leaves_iff hp hu).2 (by rw [hbefore, hleaf])
    refine h _ hmem (Path.below_iff.2 ⟨more, hm, ?_⟩)
    rw [hbefore, hsegments]

/-- Laying a tree over a phrase tree gives a phrase tree exactly if it is one itself. -/
theorem exists_leaves_overlay_iff (hi : isProper items = true) (hl : base.leaves limit = .ok lower) :
    (∃ merged, (overlay base items).leaves limit = .ok merged) ↔ ∃ upper, items.leaves limit = .ok upper := by
  obtain ⟨⟨hlimit, hfits⟩, -⟩ := leaves_eq_ok_iff.1 hl
  have hiff : ∀ tree : Table, (∃ entries, tree.leaves limit = .ok entries) ↔ fits limit tree = true := by
    intro tree
    simp only [leaves_eq_ok_iff]
    exact ⟨fun ⟨_, h, _⟩ => h.2, fun h => ⟨_, ⟨hlimit, h⟩, rfl⟩⟩
  rw [hiff, hiff, fits_overlay_iff hi hfits]

/-- Which leaves two layers have together: those of the upper one, and those of the lower one that it leaves alone. -/
theorem mem_leaves_overlay_iff (hb : isProper base = true) (hi : isProper items = true)
    (hl : base.leaves limit = .ok lower) (hu : items.leaves limit = .ok upper)
    (hm : (overlay base items).leaves limit = .ok merged) {path : String} {value : Value} :
    ⟨path, value⟩ ∈ merged ↔ ⟨path, value⟩ ∈ upper ∨
      items.touches (Path.segments path) = false ∧ ⟨path, value⟩ ∈ lower := by
  obtain ⟨⟨-, hfb⟩, -⟩ := leaves_eq_ok_iff.1 hl
  obtain ⟨⟨-, hfi⟩, -⟩ := leaves_eq_ok_iff.1 hu
  have hp := isProper_overlay items hfb hb hfi hi
  rw [mem_leaves_iff hp hm, mem_leaves_iff hi hu, mem_leaves_iff hb hl, leafAt?_overlay hi]
  cases ht : items.touches (Path.segments path) with
  | true => simp
  | false =>
    have hnone : items.leafAt? (Path.segments path) = none := Value.leafAt?_of_not_touches ht
    simp [hnone]

/-- **Loading overlays texts path by path.** A tree that is laid over a phrase tree makes one exactly if it is one
itself. At each path then lies the leaf of the upper tree, or the leaf of the lower tree if the upper one has nothing
there, neither a leaf nor a table, and no leaf at a scope of the path. -/
theorem leaves_overlay (hb : isProper base = true) (hi : isProper items = true)
    (hl : base.leaves limit = .ok lower) :
    ((∃ merged, (overlay base items).leaves limit = .ok merged) ↔ ∃ upper, items.leaves limit = .ok upper) ∧
      ∀ merged upper, (overlay base items).leaves limit = .ok merged → items.leaves limit = .ok upper →
        ∀ path value, ⟨path, value⟩ ∈ merged ↔ ⟨path, value⟩ ∈ upper ∨
          (items.at? (Path.segments path) = none ∧ ∀ entry ∈ upper, ¬ Path.Below entry.path path) ∧
            ⟨path, value⟩ ∈ lower := by
  refine ⟨exists_leaves_overlay_iff hi hl, fun merged upper hm hu path value => ?_⟩
  rw [mem_leaves_overlay_iff hb hi hl hu hm, touches_segments_eq_false_iff hi hu]

/-- An empty table takes the place of a phrase and leaves a table as it is, a phrase takes the place of a table, and a
table that of a phrase. -/
theorem leaves_overlay_menu :
    let base : Table := [(.text "title", .text "Menu"), (.text "file", .table [(.text "open", .text "Open")]),
      (.text "edit", .table [(.text "undo", .text "Undo")]), (.text "help", .text "Help")]
    let items : Table := [(.text "title", .table []), (.text "file", .text "File"), (.text "edit", .table []),
      (.text "help", .table [(.text "about", .text "About")])]
    isProper base = true ∧ isProper items = true ∧
      (∃ lower, base.leaves 2 = .ok lower ∧ lower.map Entry.path = ["title", "file.open", "edit.undo", "help"]) ∧
      ∃ merged, (overlay base items).leaves 2 = .ok merged ∧
        merged.map Entry.path = ["file", "edit.undo", "help.about"] ∧ ⟨"edit.undo", .text "Undo"⟩ ∈ merged := by
  intro base items
  have hb : isProper base = true := by decide +kernel
  have hi : isProper items = true := by decide +kernel
  have hl : base.leaves 2 = .ok ((rows base).map (Entry.ofRow [])) :=
    leaves_eq_ok_iff.2 ⟨⟨by decide, by decide +kernel⟩, rfl⟩
  have hu : items.leaves 2 = .ok ((rows items).map (Entry.ofRow [])) :=
    leaves_eq_ok_iff.2 ⟨⟨by decide, by decide +kernel⟩, rfl⟩
  obtain ⟨hiff, hpaths⟩ := leaves_overlay hb hi hl
  obtain ⟨merged, hm⟩ := hiff.2 ⟨_, hu⟩
  refine ⟨hb, hi, ⟨_, hl, by decide +kernel⟩, merged, hm, ?_, ?_⟩
  · rw [(leaves_eq_ok_iff.1 hm).2]
    decide +kernel
  · have halone : items.touches (Path.segments "edit.undo") = false := by decide +kernel
    have hsegments : Path.segments "edit.undo" = ["edit", "undo"] := by decide +kernel
    refine (hpaths _ _ hm hu _ _).2 (Or.inr ⟨(touches_segments_eq_false_iff hi hu).1 halone, ?_⟩)
    rw [mem_leaves_iff hb hl, hsegments]
    simp [base, leafAt?, Value.leafAt?, get?_cons_text]

end Table

end Phrasebook
