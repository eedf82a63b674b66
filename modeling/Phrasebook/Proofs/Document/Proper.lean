import Phrasebook.Document.File

/-!
# No key comes twice in a file

* `Folder.isProper_of_readTable` and `Folder.isProper_of_readAll`: whatever the parsers, no key comes twice in a table
  that is read from a file, nor in a table in that one.
-/

namespace Phrasebook

/-- **No key comes twice** in the table that is read from a file. -/
theorem Folder.isProper_of_readTable {f : Folder} {path : FilePath} {given : String} {tree : Table}
    (h : f.readTable path given = .ok tree) : Table.isProper tree = true := by
  unfold Folder.readTable at h
  split at h
  · cases h
  · dsimp only at h
    split at h
    · cases h
    · split at h
      · cases h
      · obtain ⟨v, hv, h⟩ := bind_eq_ok_iff.1 h
        have hproper := Parsers.isProper_of_read hv
        split at h
        · cases h
          exact hproper
        · cases h
          rfl
        · cases h

/-- No key comes twice in one of the tables that are read from some files. -/
theorem Folder.isProper_of_readAll {f : Folder} {workers : Option Int} {sources : List Source}
    {trees : Ordered String Table} (h : f.readAll workers sources = .ok trees) :
    ∀ item ∈ trees, Table.isProper item.2 = true := by
  have hfold : ∀ (sources : List Source) (tables : Ordered String Table),
      (∀ item ∈ tables, Table.isProper item.2 = true) →
        sources.foldlM (fun tables source => do
          return tables.put source.locale (← f.readTable source.path source.given)) tables = .ok trees →
        ∀ item ∈ trees, Table.isProper item.2 = true := by
    intro sources
    induction sources with
    | nil =>
      intro tables ht h
      cases h
      exact ht
    | cons source sources ih =>
      intro tables ht h
      rw [List.foldlM_cons] at h
      obtain ⟨next, hnext, h⟩ := bind_eq_ok_iff.1 h
      obtain ⟨tree, hread, hnext⟩ := bind_eq_ok_iff.1 hnext
      cases hnext
      refine ih _ (fun item hitem => ?_) h
      rcases Ordered.mem_put hitem with rfl | hitem
      · exact isProper_of_readTable hread
      · exact ht item hitem
  unfold readAll at h
  split at h
  · cases h
  · exact hfold sources [] (fun item hitem => (by cases hitem)) h

end Phrasebook
