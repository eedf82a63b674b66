import Phrasebook.Proofs.Book.Bulk

/-!
# Bulk loads that fail

A bulk load that fails while the files are read changes nothing. One that fails while their trees are loaded leaves the
trees before the refused one in the book.

* `Folder.readAll_eq_ok_iff`: files are read in bulk exactly if each of them can be read.
* `Book.loadAll_eq_error_iff`: loading up to the first tree that is refused is loading the trees before it.
* `Book.Frame`: what some loads leave alone; `Frame.load` is one step and `frame_loadTrees` a run.
* `Session.Reachable.loadFiles_interrupted`: when a bulk load fails and what it leaves behind, and
  `Session.loadFiles_keeps_a_locale`: it may leave a locale that was not there.
-/

namespace Phrasebook

/-! ## Reading that fails -/

namespace Folder

variable {f : Folder}

/-- Tables that could be read into a map come from files that can be read. -/
theorem reads_of_foldlM {sources : List Source} : ∀ {tables tables' : Ordered String Table},
    sources.foldlM (fun (tables : Ordered String Table) source => do
      return tables.put source.locale (← f.readTable source.path source.given)) tables = .ok tables' →
        ∀ source ∈ sources, f.Reads source := by
  induction sources with
  | nil => exact fun _ source hs => (by cases hs)
  | cons source sources ih =>
    intro tables tables' h
    obtain ⟨next, hnext, h⟩ := bind_eq_ok_iff.1 (List.foldlM_cons.symm.trans h)
    obtain ⟨tree, hread, -⟩ := bind_eq_ok_iff.1 hnext
    exact List.forall_mem_cons.2 ⟨reads_of_eq_ok hread, ih h⟩

/-- **Files are read in bulk exactly if each of them can be read** and there is somebody to read them. -/
theorem readAll_eq_ok_iff {workers : Option Int} {sources : List Source} {trees : Ordered String Table} :
    f.readAll workers sources = .ok trees ↔ workers.any (· ≤ 0) = false ∧ (∀ source ∈ sources, f.Reads source) ∧
      trees = f.treesOf (lastOfEach sources) := by
  constructor
  · intro h
    have hw : workers.any (· ≤ 0) = false := by
      cases hw : workers.any (· ≤ 0) with
      | false => rfl
      | true =>
        rw [readAll, hw] at h
        cases h
    have hr : ∀ source ∈ sources, f.Reads source := by
      rw [readAll, hw] at h
      exact reads_of_foldlM h
    rw [readAll_eq_ok hw hr] at h
    exact ⟨hw, hr, (Except.ok.inj h).symm⟩
  · rintro ⟨hw, hr, rfl⟩
    exact readAll_eq_ok hw hr

end Folder

/-! ## Loading that fails -/

namespace Book

variable {b b' c : Book}

/-- An item of a list is the first one, or it comes behind that. -/
theorem exists_eq_cons_iff {α : Type} {p : List α → α → Prop} {first : α} {items : List α} :
    (∃ before item after, first :: items = before ++ item :: after ∧ p before item) ↔
      p [] first ∨ ∃ before item after, items = before ++ item :: after ∧ p (first :: before) item := by
  constructor
  · rintro ⟨before, item, after, hitems, h⟩
    rcases List.cons_eq_append_iff.1 hitems with ⟨rfl, hcons⟩ | ⟨rest, rfl, hrest⟩
    · cases hcons
      exact Or.inl h
    · exact Or.inr ⟨rest, item, after, hrest, h⟩
  · rintro (h | ⟨before, item, after, rfl, h⟩)
    · exact ⟨[], first, items, rfl, h⟩
    · exact ⟨first :: before, item, after, rfl, h⟩

/-- **Loading up to the first tree that is refused is loading the trees before it.** -/
theorem loadAll_eq_error_iff {trees : List (String × Table)} {fault : Fault} : ∀ {b : Book},
    b.loadAll trees = (b', .error fault) ↔ ∃ before item after, trees = before ++ item :: after ∧
      b.loadTrees before = .ok b' ∧ b'.load item.1 item.2 = .error fault := by
  induction trees with
  | nil =>
    intro b
    simp [loadAll]
  | cons first trees ih =>
    intro b
    obtain ⟨locale, tree⟩ := first
    have hnil : ∀ c, b.loadTrees [] = .ok c ↔ b = c := fun c => ⟨Except.ok.inj, congrArg _⟩
    rw [exists_eq_cons_iff (p := fun before item => b.loadTrees before = .ok b' ∧ b'.load item.1 item.2 = .error fault)]
    simp only [hnil, loadTrees_cons]
    unfold loadAll
    cases hload : b.load locale tree with
    | error fault' =>
      -- nothing can come before the tree that is refused
      constructor
      · intro h
        cases h
        exact Or.inl ⟨rfl, hload⟩
      · rintro (⟨rfl, h⟩ | ⟨_, _, _, -, h, -⟩)
        · rw [hload] at h
          cases h
          rfl
        · cases h
    | ok c =>
      rw [ih]
      refine ⟨Or.inr, ?_⟩
      rintro (⟨rfl, h⟩ | h)
      · cases hload.symm.trans h
      · exact h

/-- Loading up to the first tree that is refused succeeds exactly if all trees can be loaded one after the other. -/
theorem loadAll_snd_eq_ok_iff {trees : List (String × Table)} : ∀ {b : Book},
    (b.loadAll trees).2 = .ok () ↔ ∃ b', b.loadTrees trees = .ok b' := by
  induction trees with
  | nil => exact iff_of_true rfl ⟨_, rfl⟩
  | cons item trees ih =>
    intro b
    obtain ⟨locale, tree⟩ := item
    rw [loadTrees_cons, loadAll]
    cases b.load locale tree with
    | error fault =>
      refine iff_of_false (fun h => by cases h) ?_
      rintro ⟨_, h⟩
      cases h
    | ok c => exact ih

/-- After loads for some locales, these are among the locales, the editions of all others are as they were, and exactly
the texts of the others are still remembered. -/
structure Frame (loaded : List String) (b b' : Book) : Prop where
  options : b'.shelf.options = b.shelf.options
  locales : ∀ locale, locale ∈ b'.locales ↔ locale ∈ b.locales ∨ locale ∈ loaded
  editions : ∀ locale, locale ∉ loaded → b'.editions.get? locale = b.editions.get? locale
  memo : b'.memo.entries = b.memo.entries.filter fun entry => entry.1.locale ∉ loaded

theorem Frame.refl (b : Book) : Frame [] b b where
  options := rfl
  locales _ := by simp
  editions _ _ := rfl
  memo := (List.filter_eq_self.2 (by simp)).symm

/-- One load touches its locale. -/
theorem Frame.load {locale : String} {tree : Table} (h : b.load locale tree = .ok b') : Frame [locale] b b' where
  options := options_load h
  locales other := by rw [mem_locales_load h, List.mem_singleton]
  editions other hother := get?_editions_load h (by simpa using hother)
  memo := by
    obtain ⟨edition, -, -, rfl⟩ := load_eq_ok h
    simp [Fifo.keep]

theorem Frame.trans {loaded loaded' : List String} (h : Frame loaded b c) (h' : Frame loaded' c b') :
    Frame (loaded ++ loaded') b b' where
  options := h'.options.trans h.options
  locales locale := by rw [h'.locales, h.locales, List.mem_append, or_assoc]
  editions locale hlocale := by
    rw [List.mem_append, not_or] at hlocale
    exact (h'.editions locale hlocale.2).trans (h.editions locale hlocale.1)
  memo := by
    rw [h'.memo, h.memo, List.filter_filter]
    refine List.filter_congr fun entry _ => ?_
    simp [Bool.and_comm]

/-- A run of loads touches their locales. -/
theorem frame_loadTrees {trees : List (String × Table)} (h : b.loadTrees trees = .ok b') :
    Frame (trees.map (·.1)) b b' := by
  refine loadTrees_induct (motive := fun trees c => Frame (trees.map (·.1)) b c) (Frame.refl b) (fun hc hload => ?_) h
  rw [List.map_append]
  exact hc.trans (Frame.load hload)

theorem sound_of_loadTrees {trees : List (String × Table)} (hs : b.Sound) (h : b.loadTrees trees = .ok b') :
    b'.Sound :=
  loadTrees_induct (motive := fun _ c => c.Sound) hs (fun hc hload => hc.load hload) h

/-- A bulk load has stopped at a file: the files before it, of those that count, were loaded one by one, and its tree is
refused. -/
structure StoppedAt (b : Book) (folder : Folder) (before : List Source) (source : Source) (b' : Book) (fault : Fault) :
    Prop where
  loaded : b.loadEach folder before = .ok b'
  refused : b'.loadFile folder source = .error fault
  admitted : ∀ earlier ∈ before, b.Admits (folder.treeOf earlier)
  not_admitted : ¬ b.Admits (folder.treeOf source)
  frame : Frame (before.map Source.locale) b b'

/-- When all files can be read, bulk loading fails exactly by stopping at one. -/
theorem loadAll_treesOf_eq_error_iff {folder : Folder} {sources : List Source} (hs : b.Sound)
    (hr : ∀ source ∈ sources, folder.Reads source) {fault : Fault} :
    b.loadAll (folder.treesOf sources) = (b', .error fault) ↔
      ∃ before source after, sources = before ++ source :: after ∧ b.StoppedAt folder before source b' fault := by
  rw [loadAll_eq_error_iff]
  constructor
  · rintro ⟨before, item, after, htrees, hbefore, hitem⟩
    obtain ⟨sources₁, rest, rfl, rfl, hrest⟩ := List.map_eq_append_iff.1 htrees
    obtain ⟨source, sources₂, rfl, rfl, rfl⟩ := List.map_eq_cons_iff.1 hrest
    have hr₁ : ∀ earlier ∈ sources₁, folder.Reads earlier := fun earlier hmem =>
      hr earlier (List.mem_append_left _ hmem)
    have hread : folder.Reads source := hr source (by simp)
    have hframe := frame_loadTrees hbefore
    have hproper : ∀ item ∈ folder.treesOf sources₁, Table.isProper item.2 = true := by
      intro item hitem
      obtain ⟨earlier, hmem, rfl⟩ := List.mem_map.1 hitem
      exact (hr₁ earlier hmem).isProper
    refine ⟨sources₁, source, sources₂, rfl, ?_, ?_, ?_, ?_, ?_⟩
    · exact (loadEach_eq_loadTrees b hr₁).trans hbefore
    · exact (loadFile_eq_load b' hread).trans hitem
    · intro earlier hmem
      exact (exists_loadTrees_iff hs hproper).1 ⟨b', hbefore⟩ _ (List.mem_map_of_mem hmem)
    · intro hadmits
      have hadmits' : b'.Admits (folder.treeOf source) := by rwa [Admits, hframe.options]
      obtain ⟨_, hload⟩ := (exists_load_iff (sound_of_loadTrees hs hbefore) source.locale hread.isProper).2 hadmits'
      cases hitem.symm.trans hload
    · rwa [List.map_map] at hframe
  · rintro ⟨before, source, after, rfl, hstopped⟩
    have hr₁ : ∀ earlier ∈ before, folder.Reads earlier := fun earlier hmem => hr earlier (List.mem_append_left _ hmem)
    refine ⟨folder.treesOf before, (source.locale, folder.treeOf source), folder.treesOf after, ?_, ?_, ?_⟩
    · simp [Folder.treesOf]
    · exact (loadEach_eq_loadTrees b hr₁).symm.trans hstopped.loaded
    · exact (loadFile_eq_load b' (hr source (by simp))).symm.trans hstopped.refused

end Book

namespace Session

/-- **What a bulk load leaves behind when it fails.** In every session it succeeds exactly if there is somebody to read
the files, each of them can be read, and the last one of each locale is a phrase tree. If the files cannot be read it
changes nothing. Else it stops at the first tree that is refused, and has loaded the files before it. -/
theorem Reachable.loadFiles_interrupted {s : Session} (hs : s.Reachable) (workers : Option Int)
    (sources : List Source) :
    let loaded := s.book.loadFiles s.folder workers sources
    (loaded.2 = .ok () ↔ workers.any (· ≤ 0) = false ∧ (∀ source ∈ sources, s.folder.Reads source) ∧
        ∀ source ∈ lastOfEach sources, s.book.Admits (s.folder.treeOf source)) ∧
      ∀ fault, loaded.2 = .error fault →
        (s.folder.readAll workers sources = .error fault ∧ loaded.1 = s.book) ∨
          (∀ source ∈ sources, s.folder.Reads source) ∧ ∃ before source after,
            lastOfEach sources = before ++ source :: after ∧
              s.book.StoppedAt s.folder before source loaded.1 fault := by
  unfold Book.loadFiles
  cases hread : s.folder.readAll workers sources with
  | error fault =>
    refine ⟨iff_of_false (fun h => by cases h) ?_, fun fault' h => ?_⟩
    · rintro ⟨hw, hr, -⟩
      cases hread.symm.trans (Folder.readAll_eq_ok hw hr)
    · cases h
      exact Or.inl ⟨rfl, rfl⟩
  | ok trees =>
    obtain ⟨hw, hr, rfl⟩ := Folder.readAll_eq_ok_iff.1 hread
    have hlast : ∀ source ∈ lastOfEach sources, s.folder.Reads source := fun source hsource =>
      hr source (lastOfEach_subset sources hsource)
    have hproper : ∀ item ∈ s.folder.treesOf (lastOfEach sources), Table.isProper item.2 = true := by
      intro item hitem
      obtain ⟨source, hsource, rfl⟩ := List.mem_map.1 hitem
      exact (hlast source hsource).isProper
    constructor
    · rw [Book.loadAll_snd_eq_ok_iff, Book.exists_loadTrees_iff hs.sound hproper]
      rw [Folder.treesOf, List.forall_mem_map]
      exact ⟨fun h => ⟨hw, hr, h⟩, fun h => h.2.2⟩
    · intro fault h
      exact Or.inr ⟨hr, (Book.loadAll_treesOf_eq_error_iff hs.sound hlast).1 (Prod.ext rfl h)⟩

/-- A session beside two good files and one that holds a key with a dot. -/
def besideBrokenFile : Session := shelved.after [.write (.ofText "c.yaml") (.file "b.c: C".toUTF8)]

theorem besideBrokenFile_reachable : besideBrokenFile.Reachable := shelved_reachable.after _

/-- A bulk load with the broken file in the last place stops there. -/
theorem loadFiles_interrupted_broken :
    let sources : List Source := [.ofText "a.yaml" "fr", .ofText "c.yaml" "de"]
    let loaded := besideBrokenFile.book.loadFiles besideBrokenFile.folder none sources
    besideBrokenFile.Reachable ∧ ∃ fault, loaded.2 = .error fault ∧ ∃ before source after,
      lastOfEach sources = before ++ source :: after ∧
        besideBrokenFile.book.StoppedAt besideBrokenFile.folder before source loaded.1 fault := by
  intro sources loaded
  have hfails : loaded.2.toOption = none := by decide +kernel
  have hread : (besideBrokenFile.folder.readAll none sources).toOption.isSome = true := by decide +kernel
  obtain ⟨trees, hread⟩ := Option.isSome_iff_exists.1 hread
  cases hfault : loaded.2 with
  | ok done =>
    rw [hfault] at hfails
    cases hfails
  | error fault =>
    refine ⟨besideBrokenFile_reachable, fault, rfl, ?_⟩
    rcases (besideBrokenFile_reachable.loadFiles_interrupted none sources).2 fault hfault with ⟨hno, -⟩ | ⟨-, hstopped⟩
    · cases hno.symm.trans (toOption_eq_some_iff.1 hread)
    · exact hstopped

/-- A bulk load that fails leaves a locale behind that was not there before it. -/
theorem loadFiles_keeps_a_locale :
    let loaded := besideBrokenFile.book.loadFiles besideBrokenFile.folder none
      [.ofText "a.yaml" "fr", .ofText "c.yaml" "de"]
    besideBrokenFile.Reachable ∧ besideBrokenFile.book.locales = [] ∧ loaded.2.toOption = none ∧
      loaded.1.locales = ["fr"] ∧
      (loaded.1.editions.get? "fr").map (fun edition => edition.texts.keys) = some ["a"] := by
  intro loaded
  exact ⟨besideBrokenFile_reachable, by decide +kernel, by decide +kernel, by decide +kernel, by decide +kernel⟩

end Session

end Phrasebook
