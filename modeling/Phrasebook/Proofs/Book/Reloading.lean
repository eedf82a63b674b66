import Phrasebook.Proofs.Book.Stores
import Phrasebook.Proofs.Tree.Again

/-!
# Loading again

* `Book.load_again`: a tree that has just been loaded into a sound book can be loaded again, and the book stays as it
  is. The first time the tree may have been laid over that of the default locale, the second time it is laid over what
  came of that.
* `Session.Reachable.run_again`: in every session a loading that is repeated at once ends as it did before, and changes
  nothing.
-/

namespace Phrasebook

namespace Book

variable {b b' : Book}

/-- Of two editions that are put into a book for a locale the last one is there. -/
theorem enter_enter (b : Book) (locale : String) (edition edition' : Edition) :
    (b.enter locale edition).enter locale edition' = b.enter locale edition' := by
  simp only [enter, Ordered.put_put, Fifo.keep_keep, Bool.and_self, Shelf.clear_clear]

/-- **A tree that is loaded again leaves the book as it is.** -/
theorem load_again (hs : b.Sound) {locale : String} {tree : Table} (hp : Table.isProper tree = true)
    (h : b.load locale tree = .ok b') : b'.load locale tree = .ok b' := by
  obtain ⟨edition, hedition, rfl⟩ := load_eq_ok_iff.1 h
  obtain ⟨entries, hleaves, hmade⟩ := map_eq_ok_iff.1 hedition
  have hfits := (Table.leaves_eq_ok_iff.1 hleaves).1.2
  have hkeyed : Table.isKeyed tree = true :=
    Table.isKeyed_of_fits tree (Table.fits_of_overlay tree hp (hs.fits_base locale) hfits)
  -- the second time the tree is laid over what came of it the first time
  have hbase : (b.enter locale edition).base locale = Table.overlay (b.base locale) tree := by
    rw [base, get?_editions_enter, if_pos rfl, ← hmade]
  refine load_eq_ok_iff.2 ⟨edition, ?_, enter_enter b locale edition edition⟩
  rw [hbase, Table.overlay_again hp hkeyed]
  exact hedition

end Book

namespace Session

variable {s : Session}

/-- A tree that is loaded a second time at once changes nothing. -/
theorem run_loadTree_again (hs : s.Reachable) {locale : String} {tree : Table} (hp : Table.isProper tree = true) :
    (s.run (.loadTree locale tree)).1.run (.loadTree locale tree) = s.run (.loadTree locale tree) := by
  cases h : s.book.load locale tree with
  | error fault =>
    have hrun := run_loadTree_of_error h
    rw [hrun]
    exact hrun
  | ok book =>
    rw [run_loadTree_of_ok h]
    exact run_loadTree_of_ok (Book.load_again hs.sound hp h)

/-- **Loading again changes nothing.** A tree that is laid over another one twice lies there as it did the first time,
with its keys in the same order. So in every session a tree or a file that is loaded twice, one time right after the
other, leaves the session as the first time did, with the same answer. The keys of the tree have to stand for something:
a double that is not a number differs from itself, and would be there twice. -/
theorem Reachable.run_again (hs : s.Reachable) :
    (∀ base items : Table, Table.isProper items = true → Table.isKeyed items = true →
      Table.overlay (Table.overlay base items) items = Table.overlay base items) ∧
    ∀ loading : Loading, loading.step.isProper = true →
      (s.run loading.step).1.run loading.step = s.run loading.step := by
  refine ⟨fun base items hp hk => Table.overlay_again hp hk base, fun loading hp => ?_⟩
  cases loading with
  | tree locale tree => exact run_loadTree_again hs hp
  | file source =>
    rw [Loading.step]
    cases h : s.folder.readTable source.path source.given with
    | error fault =>
      have hrun := run_loadFile_of_error h
      rw [hrun]
      exact hrun
    | ok tree =>
      -- the files are as they were, so that the same tree is read again
      have hfolder : (s.run (.loadTree source.locale tree)).1.folder = s.folder := by
        rw [run]
        cases s.book.load source.locale tree <;> rfl
      rw [run_loadFile_of_ok h, run_loadFile_of_ok (hfolder.symm ▸ h)]
      exact run_loadTree_again hs (Folder.isProper_of_readTable h)

/-- A locale that is new at the first load and is there at the second one, with a phrase in place of a table. -/
theorem run_again_salut :
    let base : Table := [(.text "a", .table [(.text "b", .text "Hi")])]
    let items : Table := [(.text "c", .text "Ici"), (.text "a", .text "Salut")]
    let s := (blank "en" {} 4 (by decide)).after [.loadTree "en" base]
    let salut : Loading := .tree "fr" items
    s.Reachable ∧ Table.isProper items = true ∧ Table.isKeyed items = true ∧ salut.step.isProper = true ∧
      Table.overlay (Table.overlay base items) items = Table.overlay base items ∧
      (s.run salut.step).1.run salut.step = s.run salut.step ∧
      ((s.run salut.step).1.book.editions.map fun item => (item.1, item.2.texts.keys)) =
        [("en", ["a.b"]), ("fr", ["a", "c"])] := by
  intro base items s salut
  have hs : s.Reachable := ⟨_, _, initial_blank "en" {} 4 (by decide), rfl⟩
  have hp : Table.isProper items = true := by decide +kernel
  have hk : Table.isKeyed items = true := by decide +kernel
  obtain ⟨htwice, hagain⟩ := hs.run_again
  exact ⟨hs, hp, hk, hp, htwice base items hp hk, hagain salut hp, by decide +kernel⟩

end Session

end Phrasebook
