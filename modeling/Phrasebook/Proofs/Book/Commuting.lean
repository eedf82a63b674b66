import Phrasebook.Proofs.Book.Representative

/-!
# Loads of different locales

Two locales, neither of them the default one, can be loaded in either order. The books that come of it are twins
(`Book.Twin`): they differ at most in the order of their locales behind the first.

* `Book.twin_enter`: new editions of two locales make twins, whichever comes first.
* `Session.Twin.run`: twins answer alike, and stay twins, whatever is done with them, as long as nobody asks for the
  list of the locales. So they do in whole runs (`Session.Twin.replies`).
* `Session.Reachable.loads_commute`: so it is after the loads of two locales.
-/

namespace Phrasebook

namespace Book

variable {b c : Book} {locale other : String} {edition edition' : Edition}

/-- What a tree is laid over does not depend on other locales than its own and the default one. -/
theorem base_enter (hne : locale ≠ other) (hd : locale ≠ b.defaultLocale) :
    (b.enter locale edition).base other = b.base other := by
  have hdefault : (b.enter locale edition).defaultLocale = b.defaultLocale := rfl
  simp only [base, hdefault, get?_editions_enter, if_neg hne, if_neg hd]

/-! ## Twins -/

/-- Two books differ at most in the order of their locales behind the first. -/
structure Twin (b c : Book) : Prop where
  repository : b.repository = c.repository
  defaultLocale : b.defaultLocale = c.defaultLocale
  memo : b.memo = c.memo
  shelf : b.shelf = c.shelf
  edition : ∀ locale, b.editions.get? locale = c.editions.get? locale
  first : b.locales.head? = c.locales.head?

/-- **New editions of two locales make twins**, whichever of them comes first. -/
theorem twin_enter (hne : locale ≠ other) (hsome : b.locales ≠ []) (edition edition' : Edition) :
    Twin ((b.enter locale edition).enter other edition') ((b.enter other edition').enter locale edition) where
  repository := rfl
  defaultLocale := rfl
  memo := by
    simp only [enter, Fifo.keep_keep]
    exact congrArg b.memo.keep (funext fun call => Bool.and_comm _ _)
  shelf := rfl
  edition := fun l => by
    simp only [get?_editions_enter]
    by_cases h : locale = l
    · rw [if_pos h, if_pos h, if_neg fun h' => hne (h.trans h'.symm)]
    · rw [if_neg h, if_neg h]
  first := by
    obtain ⟨first, rest, hfirst⟩ := List.exists_cons_of_ne_nil hsome
    have hhead : (Ordered.keys b.editions).head? = some first := congrArg List.head? hfirst
    simp only [enter, locales, Ordered.head?_keys_put, hhead, Option.some_or]

namespace Twin

theorem base (h : b.Twin c) (locale : String) : b.base locale = c.base locale := by
  unfold Book.base
  rw [h.edition, h.defaultLocale, h.edition]

theorem enter (h : b.Twin c) (locale : String) (edition : Edition) :
    Twin (b.enter locale edition) (c.enter locale edition) where
  repository := h.repository
  defaultLocale := h.defaultLocale
  memo := by simp only [Book.enter, h.memo]
  shelf := by simp only [Book.enter, h.shelf]
  edition := fun other => by rw [get?_editions_enter, get?_editions_enter, h.edition]
  first := by
    have hfirst : (Ordered.keys b.editions).head? = (Ordered.keys c.editions).head? := h.first
    simp only [Book.enter, locales, Ordered.head?_keys_put, hfirst]

/-- A load ends alike in twins, and leaves twins. -/
theorem load (h : b.Twin c) (locale : String) (tree : Table) :
    (∃ fault, b.load locale tree = .error fault ∧ c.load locale tree = .error fault) ∨
      ∃ b' c', b.load locale tree = .ok b' ∧ c.load locale tree = .ok c' ∧ b'.Twin c' := by
  rw [load_eq, load_eq, ← h.base, ← h.shelf]
  cases Edition.ofTable b.shelf.options.maxDepth (Table.overlay (b.base locale) tree) with
  | error fault => exact Or.inl ⟨fault, rfl, rfl⟩
  | ok edition => exact Or.inr ⟨_, _, rfl, rfl, h.enter locale edition⟩

theorem loadAll {trees : List (String × Table)} : ∀ {b c : Book}, b.Twin c →
    (b.loadAll trees).2 = (c.loadAll trees).2 ∧ (b.loadAll trees).1.Twin (c.loadAll trees).1 := by
  induction trees with
  | nil => exact fun h => ⟨rfl, h⟩
  | cons item trees ih =>
    intro b c h
    obtain ⟨locale, tree⟩ := item
    rw [Book.loadAll, Book.loadAll]
    rcases h.load locale tree with ⟨fault, hb, hc⟩ | ⟨b', c', hb, hc, h'⟩
    · rw [hb, hc]
      exact ⟨rfl, h⟩
    · rw [hb, hc]
      exact ih h'

theorem loadFiles (h : b.Twin c) (folder : Folder) (workers : Option Int) (sources : List Source) :
    (b.loadFiles folder workers sources).2 = (c.loadFiles folder workers sources).2 ∧
      (b.loadFiles folder workers sources).1.Twin (c.loadFiles folder workers sources).1 := by
  unfold Book.loadFiles
  cases folder.readAll workers sources with
  | error fault => exact ⟨rfl, h⟩
  | ok trees => exact h.loadAll

/-- Calls to twins are held to the same catalog. -/
theorem representative? (h : b.Twin c) : b.representative? = c.representative? := by
  cases hd : b.editions.get? b.defaultLocale with
  | some edition =>
    have hd' : c.editions.get? c.defaultLocale = some edition := by rw [← h.defaultLocale, ← h.edition, hd]
    rw [representative?_of_default hd, representative?_of_default hd', h.defaultLocale]
  | none =>
    have hd' : c.editions.get? c.defaultLocale = none := by rw [← h.defaultLocale, ← h.edition, hd]
    cases hl : b.locales.head? with
    | some locale =>
      obtain ⟨edition, he, hb⟩ := representative?_of_first hd hl
      obtain ⟨edition', he', hc⟩ := representative?_of_first hd' (h.first.symm.trans hl)
      rw [h.edition, he'] at he
      cases he
      rw [hb, hc]
    | none =>
      have hb : b.editions = [] := List.map_eq_nil_iff.1 (List.head?_eq_none_iff.1 hl)
      have hc : c.editions = [] := List.map_eq_nil_iff.1 (List.head?_eq_none_iff.1 (h.first.symm.trans hl))
      simp only [Book.representative?, hb, hc, Ordered.get?_nil, List.head?_nil]

theorem catalog (h : b.Twin c) : b.catalog.2 = c.catalog.2 ∧ b.catalog.1.Twin c.catalog.1 := by
  have hr := h.representative?
  unfold Book.catalog
  rw [hr, h.shelf]
  cases c.representative? with
  | none => exact ⟨rfl, h⟩
  | some found => exact ⟨rfl, h.repository, h.defaultLocale, h.memo, rfl, h.edition, h.first⟩

theorem noticesOf (h : b.Twin c) (findings : List Finding) : b.noticesOf findings = c.noticesOf findings := by
  rw [Book.noticesOf, Book.noticesOf, h.shelf]

theorem answer (h : b.Twin c) (call : Call) : (b.answer call).2 = (c.answer call).2 ∧
    (b.answer call).1.Twin (c.answer call).1 := by
  obtain ⟨haudit, hcatalog⟩ := h.catalog
  unfold Book.answer
  rw [← h.memo, ← h.edition]
  cases call.unhashable? with
  | some typeName => exact ⟨rfl, h⟩
  | none =>
    cases b.memo.find? call.same with
    | some text => exact ⟨rfl, h⟩
    | none =>
      cases b.editions.get? call.locale with
      | none => exact ⟨rfl, h⟩
      | some edition =>
        dsimp only
        rw [← haudit, ← hcatalog.noticesOf, ← hcatalog.repository]
        cases b.catalog.2.outcome.bind fun issue => write b.catalog.1.repository issue.catalog edition.texts call with
        | error fault => exact ⟨rfl, hcatalog⟩
        | ok text =>
          exact ⟨rfl, rfl, hcatalog.defaultLocale, by rw [hcatalog.memo], hcatalog.shelf,
            hcatalog.edition, hcatalog.first⟩

end Twin

end Book

/-! ## Twin sessions -/

namespace Session

variable {s t : Session}

/-- What some steps are answered. -/
def replies (s : Session) : List Step → List (Reply Answer)
  | [] => []
  | step :: steps => (s.run step).2 :: replies (s.run step).1 steps

/-- Two sessions with twin books beside the same files. -/
structure Twin (s t : Session) : Prop where
  book : s.book.Twin t.book
  folder : s.folder = t.folder

namespace Twin

/-- A load of one tree ends alike in twins. -/
theorem settle_load (h : s.Twin t) (locale : String) (tree : Table) :
    (s.settle (s.book.load locale tree)).2 = (t.settle (t.book.load locale tree)).2 ∧
      (s.settle (s.book.load locale tree)).1.Twin (t.settle (t.book.load locale tree)).1 := by
  rcases h.book.load locale tree with ⟨fault, hs, ht⟩ | ⟨b, c, hs, ht, hbook⟩
  · rw [hs, ht]
    exact ⟨rfl, h⟩
  · rw [hs, ht]
    exact ⟨rfl, hbook, h.folder⟩

/-- **Twins answer a step alike and stay twins**, unless they are asked for the list of their locales. -/
theorem run (h : s.Twin t) {step : Step} (hstep : step ≠ .locales) :
    (s.run step).2 = (t.run step).2 ∧ (s.run step).1.Twin (t.run step).1 := by
  cases step with
  | get key locale values scope =>
    have hcall : s.book.callOf key locale values scope = t.book.callOf key locale values scope := by
      unfold Book.callOf
      rw [h.book.defaultLocale]
    obtain ⟨hreply, hbook⟩ := h.book.answer (s.book.callOf key locale values scope)
    rw [Session.run, Session.run, Book.get, Book.get, ← hcall]
    dsimp only
    rw [hreply]
    exact ⟨rfl, hbook, h.folder⟩
  | loadTree locale tree => exact h.settle_load locale tree
  | loadFile source =>
    cases hread : s.folder.readTable source.path source.given with
    | error fault =>
      rw [run_loadFile_of_error hread, run_loadFile_of_error (h.folder ▸ hread)]
      exact ⟨rfl, h⟩
    | ok tree =>
      rw [run_loadFile_of_ok hread, run_loadFile_of_ok (h.folder ▸ hread)]
      exact h.settle_load source.locale tree
  | loadFiles sources =>
    obtain ⟨houtcome, hbook⟩ := h.book.loadFiles s.folder none sources
    rw [Session.run, Session.run, ← h.folder]
    dsimp only
    rw [houtcome]
    exact ⟨rfl, hbook, rfl⟩
  | write path node =>
    refine ⟨rfl, h.book, ?_⟩
    unfold Session.run
    rw [h.folder]
  | setDefault locale =>
    exact ⟨rfl, ⟨h.book.repository, rfl, h.book.memo, h.book.shelf, h.book.edition, h.book.first⟩, h.folder⟩
  | defaultLocale =>
    unfold Session.run
    rw [h.book.defaultLocale]
    exact ⟨rfl, h⟩
  | locales => exact absurd rfl hstep
  | catalog =>
    obtain ⟨haudit, hbook⟩ := h.book.catalog
    rw [Session.run, Session.run]
    dsimp only
    rw [haudit, hbook.noticesOf]
    exact ⟨rfl, hbook, h.folder⟩

/-- Twins answer a whole run alike. -/
theorem replies {steps : List Step} (hsteps : ∀ step ∈ steps, step ≠ .locales) : ∀ {s t : Session}, s.Twin t →
    s.replies steps = t.replies steps := by
  induction steps with
  | nil => exact fun _ => rfl
  | cons step steps ih =>
    intro s t h
    obtain ⟨hstep, hsteps⟩ := List.forall_mem_cons.1 hsteps
    obtain ⟨hreply, htwin⟩ := h.run hstep
    rw [Session.replies, Session.replies, hreply, ih hsteps htwin]

end Twin

/-- Two loads that put these editions into the book succeed, if the tree of the second one is not laid over that of the
first. -/
theorem run_two_loads {locale other : String} (hne : locale ≠ other) (hl : locale ≠ s.book.defaultLocale)
    {tree tree' : Table} {edition edition' : Edition}
    (h : Edition.ofTable s.book.shelf.options.maxDepth (Table.overlay (s.book.base locale) tree) = .ok edition)
    (h' : Edition.ofTable s.book.shelf.options.maxDepth (Table.overlay (s.book.base other) tree') = .ok edition') :
    s.replies [.loadTree locale tree, .loadTree other tree'] = List.replicate 2 { outcome := .ok .done } ∧
      s.after [.loadTree locale tree, .loadTree other tree'] =
        { s with book := (s.book.enter locale edition).enter other edition' } := by
  have hfirst : s.book.load locale tree = .ok (s.book.enter locale edition) :=
    Book.load_eq_ok_iff.2 ⟨edition, h, rfl⟩
  have hsecond : (s.book.enter locale edition).load other tree' =
      .ok ((s.book.enter locale edition).enter other edition') := by
    refine Book.load_eq_ok_iff.2 ⟨edition', ?_, rfl⟩
    rw [Book.base_enter hne hl]
    exact h'
  have hrun := run_loadTree_of_ok hfirst
  have hrun' : ({ s with book := s.book.enter locale edition } : Session).run (.loadTree other tree') = _ :=
    run_loadTree_of_ok hsecond
  constructor
  · rw [replies, replies, replies, hrun, hrun']
    rfl
  · rw [after, List.foldl_cons, List.foldl_cons, List.foldl_nil, hrun, hrun']

/-- **Loads of different locales commute.** In a session in which the default locale is there, phrase trees for two
other locales can be loaded in either order. Afterwards the tree and the texts of every locale are the same, the same is
remembered in the same order, the catalog is the same, and the locales are the same but for their order. So every later
run is answered the same, as long as nobody asks for the list of the locales. -/
theorem Reachable.loads_commute (hs : s.Reachable) (hd : s.book.defaultLocale ∈ s.book.locales)
    {locale other : String} (hne : locale ≠ other) (hl : locale ≠ s.book.defaultLocale)
    (ho : other ≠ s.book.defaultLocale) {tree tree' : Table}
    (ht : ∃ entries, Table.leaves s.book.shelf.options.maxDepth tree = .ok entries)
    (ht' : ∃ entries, Table.leaves s.book.shelf.options.maxDepth tree' = .ok entries) :
    let forth : List Step := [.loadTree locale tree, .loadTree other tree']
    let back : List Step := [.loadTree other tree', .loadTree locale tree]
    s.replies forth = List.replicate 2 { outcome := .ok .done } ∧
      s.replies back = List.replicate 2 { outcome := .ok .done } ∧
      (∀ l, (s.after forth).book.editions.get? l = (s.after back).book.editions.get? l) ∧
      (s.after forth).book.locales.Perm (s.after back).book.locales ∧
      (s.after forth).book.memo = (s.after back).book.memo ∧
      ((s.after forth).run .catalog).2 = ((s.after back).run .catalog).2 ∧
      ∀ later : List Step, (∀ step ∈ later, step ≠ .locales) →
        (s.after forth).replies later = (s.after back).replies later := by
  intro forth back
  have hadmits : ∀ {items : Table}, (∃ entries, Table.leaves s.book.shelf.options.maxDepth items = .ok entries) →
      s.book.Admits items := fun ⟨_, h⟩ => (Table.leaves_eq_ok_iff.1 h).1
  obtain ⟨edition, h⟩ := hs.sound.exists_edition locale (hadmits ht)
  obtain ⟨edition', h'⟩ := hs.sound.exists_edition other (hadmits ht')
  obtain ⟨hforth, hafter⟩ := run_two_loads hne hl h h'
  obtain ⟨hback, hafter'⟩ := run_two_loads hne.symm ho h' h
  have htwin : (s.after forth).Twin (s.after back) := by
    rw [hafter, hafter']
    exact ⟨Book.twin_enter hne (List.ne_nil_of_mem hd) edition edition', rfl⟩
  refine ⟨hforth, hback, htwin.book.edition, ?_, htwin.book.memo, (htwin.run (by simp)).1, fun later hlater =>
    Twin.replies hlater htwin⟩
  rw [hafter, hafter']
  exact Ordered.keys_put_put_perm ..

/-- A new locale and one that is there, with a text of each and one of the default locale in memory. -/
theorem loads_commute_salut :
    let hallo : Table := [(.text "a", .text "Hallo")]
    let salut : Table := [(.text "a", .text "Salut"), (.text "b", .text "Oui")]
    let s := (blank "en" {} 4 (by decide)).after
      [.loadTree "en" [(.text "a", .text "Hi")], .loadTree "fr" [], .get "a" (some "fr") [] none, .get "a" none [] none]
    let forth : List Step := [.loadTree "de" hallo, .loadTree "fr" salut]
    let back : List Step := [.loadTree "fr" salut, .loadTree "de" hallo]
    let later : List Step := [.get "b" (some "fr") [] none, .setDefault "de", .get "a" none [] none]
    s.Reachable ∧ s.book.defaultLocale ∈ s.book.locales ∧ s.book.memo.entries.length = 2 ∧
      (s.after forth).book.locales = ["en", "fr", "de"] ∧ (s.after back).book.memo.entries.length = 1 ∧
      (s.after forth).book.memo = (s.after back).book.memo ∧
      (s.after forth).replies later = (s.after back).replies later := by
  intro hallo salut s forth back later
  have hs : s.Reachable := ⟨_, _, initial_blank "en" {} 4 (by decide), rfl⟩
  have hd : s.book.defaultLocale ∈ s.book.locales := by decide +kernel
  have ht : ∃ entries, Table.leaves s.book.shelf.options.maxDepth hallo = .ok entries :=
    ⟨_, Table.leaves_eq_ok_iff.2 ⟨by decide +kernel, rfl⟩⟩
  have ht' : ∃ entries, Table.leaves s.book.shelf.options.maxDepth salut = .ok entries :=
    ⟨_, Table.leaves_eq_ok_iff.2 ⟨by decide +kernel, rfl⟩⟩
  have hne : "de" ≠ "fr" := by decide
  obtain ⟨-, -, -, -, hmemo, -, hreplies⟩ := hs.loads_commute hd hne (by decide +kernel) (by decide +kernel) ht ht'
  exact ⟨hs, hd, by decide +kernel, by decide +kernel, by decide +kernel, hmemo, hreplies later (by simp [later])⟩

end Session

end Phrasebook
