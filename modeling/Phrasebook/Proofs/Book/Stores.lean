import Phrasebook.Proofs.Book.History
import Phrasebook.Proofs.Ordered

/-!
# The stores of a phrase book

A book can be kept in stores of its own for the trees and for the texts, which a load changes one after the other. A
fault on the way leaves the stores as they are by then.

* `Stores.load` is such a load. `Book.run_load_error` and `Book.History.run_load_ok`: it keeps step with `Book.load`.
* `Stores.Consistent`: the texts are those of the trees, locale by locale.
* `Session.stores_consistent`: in every session the stores are consistent, a load that fails leaves all as it was, and
  one that does not leaves the other locales alone.
-/

namespace Phrasebook

/-- The map from the paths of some leaves to their values; of leaves with the same path the last one counts. -/
def pathMap (entries : List Entry) : Ordered String Value :=
  entries.foldl (fun texts entry => texts.put entry.path entry.value) []

/-- Leaves with different paths are the items of their map. -/
theorem pathMap_eq_map {entries : List Entry} (hn : (entries.map Entry.path).Nodup) :
    pathMap entries = entries.map fun entry => (entry.path, entry.value) :=
  Ordered.foldl_put_of_nodup hn

/-- What a book keeps, with one store for the trees and one for the texts. -/
structure Stores where
  defaultLocale : String
  trees : Ordered String Table
  texts : Ordered String (Ordered String Value)
  memo : Fifo Call String
  shelf : Shelf String

namespace Stores

/-- The tree that a new one for a locale is laid over. -/
def base (s : Stores) (locale : String) : Table :=
  ((s.trees.get? locale).or (s.trees.get? s.defaultLocale)).getD []

/-- Puts a tree and its leaves into one store after the other, and forgets what depends on them. -/
def put (locale : String) (tree : Table) (entries : List Entry) : EStateM Fault Stores Unit := do
  modify fun s => { s with trees := s.trees.put locale tree }
  modify fun s => { s with texts := s.texts.put locale (pathMap entries) }
  modify fun s => { s with shelf := s.shelf.clear }
  modify fun s => { s with memo := s.memo.keep fun call => call.locale ≠ locale }

/-- Loads a tree. It is put into the stores once it has turned out to be a phrase tree. -/
def load (locale : String) (tree : Table) : EStateM Fault Stores Unit := do
  let s ← get
  let tree := Table.overlay (s.base locale) tree
  let entries ← MonadExcept.ofExcept (Table.leaves s.shelf.options.maxDepth tree)
  put locale tree entries

/-- All that a load can do to the stores. -/
theorem run_load (s : Stores) (locale : String) (tree : Table) :
    (load locale tree).run s =
      match Table.leaves s.shelf.options.maxDepth (Table.overlay (s.base locale) tree) with
      | .error fault => .error fault s
      | .ok entries => .ok () { s with trees := s.trees.put locale (Table.overlay (s.base locale) tree)
                                       texts := s.texts.put locale (pathMap entries)
                                       shelf := s.shelf.clear
                                       memo := s.memo.keep fun call => call.locale ≠ locale } := by
  have hput : ∀ (tree : Table) (outcome : Except Fault (List Entry)),
      (MonadExcept.ofExcept outcome >>= put locale tree).run s =
        match outcome with
        | .error fault => .error fault s
        | .ok entries => .ok () { s with trees := s.trees.put locale tree
                                         texts := s.texts.put locale (pathMap entries)
                                         shelf := s.shelf.clear
                                         memo := s.memo.keep fun call => call.locale ≠ locale } := by
    intro tree outcome
    cases outcome <;> rfl
  exact hput _ _

/-- Loads the tree in a file. -/
def loadFile (folder : Folder) (source : Source) : EStateM Fault Stores Unit := do
  load source.locale (← MonadExcept.ofExcept (folder.readTable source.path source.given))

/-- The texts of every locale are the leaves of its tree by their paths, and no locale comes twice. -/
structure Consistent (s : Stores) : Prop where
  keys : s.texts.keys = s.trees.keys
  nodup : s.trees.keys.Nodup
  texts : ∀ locale tree, s.trees.get? locale = some tree → ∃ entries,
    Table.leaves s.shelf.options.maxDepth tree = .ok entries ∧ (entries.map Entry.path).Nodup ∧
      s.texts.get? locale = some (pathMap entries)

end Stores

namespace Book

variable {b b' : Book} {loads : List Load}

/-- The stores of a book. -/
def stores (b : Book) : Stores where
  defaultLocale := b.defaultLocale
  trees := b.editions.mapValues Edition.tree
  texts := b.editions.mapValues Edition.texts
  memo := b.memo
  shelf := b.shelf

theorem base_stores (b : Book) (locale : String) : b.stores.base locale = b.base locale := by
  unfold Stores.base Book.base stores
  simp only [Ordered.get?_mapValues]
  cases b.editions.get? locale with
  | some edition => rfl
  | none => cases b.editions.get? b.defaultLocale <;> rfl

/-- A load that fails does so before a store has changed. -/
theorem run_load_error {locale : String} {tree : Table} {fault : Fault} (h : b.load locale tree = .error fault) :
    (Stores.load locale tree).run b.stores = .error fault b.stores := by
  rw [Stores.run_load, base_stores]
  rcases bind_eq_error_iff.1 h with h | ⟨entries, -, h⟩
  · have hleaves : Table.leaves b.stores.shelf.options.maxDepth (Table.overlay (b.base locale) tree) = .error fault := h
    rw [hleaves]
  · cases h

/-- No locale comes twice in a book. -/
theorem History.nodup_locales (h : History loads b) : b.locales.Nodup := by
  induction h with
  | empty h =>
    obtain ⟨_, rfl⟩ := ofCapacity_eq_ok h
    exact List.nodup_nil
  | load _ _ h ih =>
    obtain ⟨edition, -, -, rfl⟩ := load_eq_ok h
    exact Ordered.nodup_keys_put ih
  | answer call hb ih =>
    unfold locales
    rw [editions_answer hb.sound]
    exact ih
  | catalog _ ih =>
    unfold locales
    rw [editions_catalog]
    exact ih
  | withDefault _ _ ih => exact ih

/-- The stores of a book with a history are consistent. -/
theorem History.consistent (h : History loads b) : b.stores.Consistent := by
  refine ⟨?_, ?_, ?_⟩
  · simp [stores]
  · rw [stores, Ordered.keys_mapValues]
    exact h.nodup_locales
  · intro locale tree ht
    rw [stores, Ordered.get?_mapValues] at ht
    obtain ⟨edition, he, rfl⟩ := Option.map_eq_some_iff.1 ht
    obtain ⟨entries, hl, htexts⟩ := h.sound.edition locale edition he
    have hn := Table.nodup_paths_leaves (h.isProper he) hl
    refine ⟨entries, hl, hn, ?_⟩
    rw [stores, Ordered.get?_mapValues, he, Option.map_some, htexts, pathMap_eq_map hn]

/-- A load of a book with a history keeps step in the stores. -/
theorem History.run_load_ok (h : History loads b) {locale : String} {tree : Table} (ht : Table.isProper tree = true)
    (hl : b.load locale tree = .ok b') : (Stores.load locale tree).run b.stores = .ok () b'.stores := by
  have h' := h.load ht hl
  obtain ⟨edition, ⟨entries, hleaves, htexts⟩, htree, rfl⟩ := load_eq_ok hl
  have hproper : Table.isProper edition.tree = true :=
    h'.isProper (show (b.editions.put locale edition).get? locale = some edition by rw [Ordered.get?_put, if_pos rfl])
  have hn := Table.nodup_paths_leaves hproper hleaves
  have hrun : Table.leaves b.stores.shelf.options.maxDepth (Table.overlay (b.base locale) tree) = .ok entries := by
    rw [← htree]
    exact hleaves
  rw [Stores.run_load, base_stores, hrun]
  simp only [stores, Ordered.mapValues_put, pathMap_eq_map hn, htexts, htree]

/-- Loading leaves the trees and the texts of other locales alone. -/
theorem get?_stores_load {locale other : String} {tree : Table} (h : b.load locale tree = .ok b')
    (hne : other ≠ locale) :
    b'.stores.trees.get? other = b.stores.trees.get? other ∧
      b'.stores.texts.get? other = b.stores.texts.get? other := by
  simp only [stores, Ordered.get?_mapValues, get?_editions_load h hne, and_self]

end Book

namespace Session

/-- A step that loads one tree: one that is given, or that in a file. -/
inductive Loading where
  | tree (locale : String) (tree : Table)
  | file (source : Source)

namespace Loading

/-- The step of a session. -/
def step : Loading → Step
  | tree locale items => .loadTree locale items
  | file source => .loadFile source

/-- The locale that is loaded. -/
def locale : Loading → String
  | tree locale _ => locale
  | file source => source.locale

/-- The change of the stores. -/
def change (folder : Folder) : Loading → EStateM Fault Stores Unit
  | tree locale items => Stores.load locale items
  | file source => Stores.loadFile folder source

end Loading

/-- How a loading ends: with a fault, and all is as it was, in the session and in the stores; or with a new state of the
book and its stores, which are consistent, and in which no other locale has changed. -/
inductive Ends (s : Session) (loading : Loading) : Prop
  | failed (fault : Fault) : s.run loading.step = (s, { outcome := .error fault }) →
      (loading.change s.folder).run s.book.stores = .error fault s.book.stores → Ends s loading
  | loaded (book : Book) : s.run loading.step = ({ s with book }, { outcome := .ok .done }) →
      (loading.change s.folder).run s.book.stores = .ok () book.stores → book.stores.Consistent →
      (∀ other, other ≠ loading.locale → book.stores.trees.get? other = s.book.stores.trees.get? other ∧
        book.stores.texts.get? other = s.book.stores.texts.get? other) → Ends s loading

variable {s : Session} {loads : List Load}

/-- A tree that is loaded leads to the book with it. -/
theorem run_loadTree_of_ok {locale : String} {tree : Table} {book : Book} (h : s.book.load locale tree = .ok book) :
    s.run (.loadTree locale tree) = ({ s with book }, { outcome := .ok .done }) := by
  rw [run, h, settle]

/-- A tree that cannot be loaded changes nothing. -/
theorem run_loadTree_of_error {locale : String} {tree : Table} {fault : Fault}
    (h : s.book.load locale tree = .error fault) :
    s.run (.loadTree locale tree) = (s, { outcome := .error fault }) := by
  rw [run, h, settle]

/-- How a load of a tree ends. -/
theorem ends_tree (hs : Book.History loads s.book) {locale : String} {tree : Table} (ht : Table.isProper tree = true) :
    s.Ends (.tree locale tree) := by
  cases h : s.book.load locale tree with
  | error fault => exact .failed fault (run_loadTree_of_error h) (Book.run_load_error h)
  | ok book =>
    exact .loaded book (run_loadTree_of_ok h) (hs.run_load_ok ht h) (hs.load ht h).consistent fun other hne =>
      Book.get?_stores_load h hne

/-- A file is loaded as the tree in it is. -/
theorem run_loadFile_of_ok {source : Source} {tree : Table}
    (h : s.folder.readTable source.path source.given = .ok tree) :
    s.run (.loadFile source) = s.run (.loadTree source.locale tree) := by
  rw [run, run, Book.loadFile, h]
  rfl

/-- A file that cannot be read changes nothing. -/
theorem run_loadFile_of_error {source : Source} {fault : Fault}
    (h : s.folder.readTable source.path source.given = .error fault) :
    s.run (.loadFile source) = (s, { outcome := .error fault }) := by
  rw [run, Book.loadFile, h]
  rfl

/-- How a load of a file ends. -/
theorem ends_file (hs : Book.History loads s.book) (source : Source) : s.Ends (.file source) := by
  cases h : s.folder.readTable source.path source.given with
  | error fault =>
    refine .failed fault (run_loadFile_of_error h) ?_
    rw [Loading.change, Stores.loadFile, h]
    rfl
  | ok tree =>
    have hstep : s.run (Loading.file source).step = s.run (Loading.tree source.locale tree).step :=
      run_loadFile_of_ok h
    have hchange : Loading.change s.folder (.file source) = Loading.change s.folder (.tree source.locale tree) := by
      unfold Loading.change Stores.loadFile
      simp only [h]
      rfl
    cases ends_tree hs (Folder.isProper_of_readTable h) with
    | failed fault hrun hstores => exact .failed fault (hstep ▸ hrun) (hchange ▸ hstores)
    | loaded book hrun hstores hc ho => exact .loaded book (hstep ▸ hrun) (hchange ▸ hstores) hc ho

/-- **The stores are consistent, and a failed load changes nothing.** -/
theorem stores_consistent {folder : Folder} {defaultLocale : String} {options : Options} {capacity : Int}
    {opening : Opening} {repository : Plural.Repository} {first : Session}
    (h : start folder defaultLocale options capacity opening repository = .ok first) {steps : List Step}
    (hs : ∀ step ∈ opening.steps defaultLocale ++ steps, step.isProper = true) :
    let s := first.after steps
    s.book.stores.Consistent ∧ s.book.stores.trees.keys = s.book.locales ∧
      ∀ loading : Loading, loading.step.isProper = true → s.Ends loading := by
  intro s
  obtain ⟨empty, hempty, rfl⟩ := start_eq_ok h
  have hhistory := history_after hempty hs
  rw [after_append] at hhistory
  refine ⟨hhistory.consistent, Ordered.keys_mapValues _ _, ?_⟩
  intro loading hp
  cases loading with
  | tree locale items => exact ends_tree hhistory hp
  | file source => exact ends_file hhistory source

/-- A session with two locales, for one of which a tree with a dot in a key cannot be loaded. -/
theorem stores_consistent_salut :
    let steps : List Step := [.loadTree "en" [(.text "a", .text "Hi")], .loadTree "fr" [(.text "a", .text "Salut")]]
    let s := (blank "en" {} 4 (by decide)).after steps
    let dotted : Loading := .tree "fr" [(.text "b", .table [(.text "c.d", .text "x")])]
    (∀ step ∈ Opening.nothing.steps "en" ++ steps, step.isProper = true) ∧ s.book.locales = ["en", "fr"] ∧
      (s.run dotted.step).2.outcome.toOption.isNone = true ∧ s.book.stores.Consistent ∧
      s.book.stores.trees.keys = s.book.locales ∧
      ∀ loading : Loading, loading.step.isProper = true → s.Ends loading := by
  intro steps s dotted
  have hs : ∀ step ∈ Opening.nothing.steps "en" ++ steps, step.isProper = true := by decide +kernel
  exact ⟨hs, by decide +kernel, by decide +kernel, stores_consistent (start_blank "en" {} 4 (by decide)) hs⟩

end Session

end Phrasebook
