import Phrasebook.Proofs.Book.Interrupted

/-!
# Files that cannot be read

`Folder.Unreadable` lists what keeps a file from being read, with the fault for each.

* `Folder.readTable_eq_error_iff`: the list is complete.
* `Folder.readAll_eq_error_iff`: of some files the first one that cannot be read decides the fault.
-/

namespace Phrasebook

namespace Folder

/-- The format that the suffix of a file tells, whatever its case. -/
def formatOf? (source : Source) : Option Format := Format.ofSuffix? (String.ofList (Text.lower source.path.suffix))

/-- A source is a file with some octets, and its suffix tells a format. -/
structure Holds (f : Folder) (source : Source) (format : Format) (bytes : ByteArray) : Prop where
  found : f.find? source.path = some (.file bytes)
  suffix : formatOf? source = some format

/-- What keeps the file of a source from being read, with the fault that tells it. -/
inductive Unreadable (f : Folder) (source : Source) : Fault → Prop
  | absent : f.find? source.path = none → Unreadable f source (.absent source.given)
  | unsupported {node : Node} : f.find? source.path = some node → formatOf? source = none →
      Unreadable f source (.unsupported (String.ofList (Text.lower source.path.suffix)))
  | directory {format : Format} : f.find? source.path = some .directory → formatOf? source = some format →
      Unreadable f source (.directory source.path.toText)
  | refused {format : Format} {bytes : ByteArray} {fault : Fault} : f.Holds source format bytes →
      f.parsers.read format bytes = .error fault → Unreadable f source fault
  | not_a_table {format : Format} {bytes : ByteArray} {v : Value} : f.Holds source format bytes →
      f.parsers.read format bytes = .ok v → v ≠ .null → (∀ items, v ≠ .table items) →
      Unreadable f source (.notATable source.path.toText v.typeName)

variable {f : Folder} {source : Source} {fault : Fault}

/-- A file of a format is read as a document of it. -/
theorem Holds.readTable_eq {format : Format} {bytes : ByteArray} (h : f.Holds source format bytes) :
    f.readTable source.path source.given = f.parsers.readTable format source.path.toText bytes := by
  have hsuffix := h.suffix
  rw [formatOf?] at hsuffix
  rw [readTable, h.found]
  simp only [hsuffix]

theorem Unreadable.readTable_eq (h : f.Unreadable source fault) :
    f.readTable source.path source.given = .error fault := by
  cases h with
  | absent hfind => rw [readTable, hfind]
  | unsupported hfind hsuffix =>
    rw [formatOf?] at hsuffix
    rw [readTable, hfind]
    simp only [hsuffix]
  | directory hfind hsuffix =>
    rw [formatOf?] at hsuffix
    rw [readTable, hfind]
    simp only [hsuffix]
  | refused hholds hread =>
    simp only [hholds.readTable_eq, Parsers.readTable, hread]
    rfl
  | not_a_table hholds hread hnull htable =>
    simp only [hholds.readTable_eq, Parsers.readTable, hread, ok_bind]
    rfl

theorem unreadable_of_readTable (h : f.readTable source.path source.given = .error fault) :
    f.Unreadable source fault := by
  unfold readTable at h
  split at h
  · next hfind =>
    cases h
    exact .absent hfind
  · next node hfind =>
    dsimp only at h
    split at h
    · next hsuffix =>
      cases h
      exact .unsupported hfind hsuffix
    · next format hsuffix =>
      split at h
      · cases h
        exact .directory hfind hsuffix
      · next bytes =>
        have hholds : f.Holds source format bytes := ⟨hfind, hsuffix⟩
        unfold Parsers.readTable at h
        rcases bind_eq_error_iff.1 h with h | ⟨v, hv, h⟩
        · exact .refused hholds h
        · split at h
          · cases h
          · cases h
          · next htable hnull =>
            cases h
            exact .not_a_table hholds hv hnull htable

/-- **A file cannot be read exactly if something on the list keeps it**, and that is the fault. -/
theorem readTable_eq_error_iff : f.readTable source.path source.given = .error fault ↔ f.Unreadable source fault :=
  ⟨unreadable_of_readTable, fun h => h.readTable_eq⟩

/-- Reading goes on up to the first file that cannot be read. -/
theorem foldlM_eq_error_iff {sources : List Source} : ∀ {tables : Ordered String Table},
    sources.foldlM (fun (tables : Ordered String Table) source => do
      return tables.put source.locale (← f.readTable source.path source.given)) tables = .error fault ↔
        ∃ before source after, sources = before ++ source :: after ∧
          (∀ earlier ∈ before, f.Reads earlier) ∧ f.Unreadable source fault := by
  induction sources with
  | nil =>
    intro tables
    refine iff_of_false (fun h => by cases h) ?_
    rintro ⟨before, source, after, h, -⟩
    simp at h
  | cons first sources ih =>
    intro tables
    rw [Book.exists_eq_cons_iff
      (p := fun before source => (∀ earlier ∈ before, f.Reads earlier) ∧ f.Unreadable source fault),
      List.foldlM_cons, bind_eq_error_iff]
    refine or_congr ?_ ?_
    · rw [bind_eq_error_iff, readTable_eq_error_iff]
      constructor
      · rintro (h | ⟨_, -, h⟩)
        · exact ⟨List.forall_mem_nil _, h⟩
        · cases h
      · exact fun h => Or.inl h.2
    · simp only [List.forall_mem_cons]
      constructor
      · rintro ⟨next, hnext, h⟩
        obtain ⟨tree, hread, -⟩ := bind_eq_ok_iff.1 hnext
        obtain ⟨before, source, after, hsources, hbefore, hsource⟩ := ih.1 h
        exact ⟨before, source, after, hsources, ⟨reads_of_eq_ok hread, hbefore⟩, hsource⟩
      · rintro ⟨before, source, after, hsources, ⟨hread, hbefore⟩, hsource⟩
        have hfirst : f.readTable first.path first.given = .ok (f.treeOf first) := hread
        exact ⟨_, bind_eq_ok_iff.2 ⟨_, hfirst, rfl⟩, ih.2 ⟨before, source, after, hsources, hbefore, hsource⟩⟩

/-- **Of some files the first one that cannot be read decides the fault.** -/
theorem readAll_eq_error_iff {workers : Option Int} (hw : workers.any (· ≤ 0) = false) {sources : List Source} :
    f.readAll workers sources = .error fault ↔ ∃ before source after, sources = before ++ source :: after ∧
      (∀ earlier ∈ before, f.Reads earlier) ∧ f.Unreadable source fault := by
  rw [readAll, hw]
  exact foldlM_eq_error_iff

end Folder

end Phrasebook
