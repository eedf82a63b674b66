import Phrasebook.Proofs.Book.Bulk

/-!
# Reading the catalog of a phrase book

The catalog that calls are held to is that of the default locale if it is loaded, and else that of the first locale that
ever was.

* `Book.reading` is what asking for the catalog answers.
* `Session.head?_locales_after`: the first locale of a book is that of the first load of a run.
* `Session.shelf_run` is all that a step can do to the shelf. What is kept when a shelf is asked for a catalog or is
  cleared is kept by every run (`shelf_after_induct`).
* `Session.current_after`: what is read is the catalog of the present tree. It is the very same one until something is
  loaded (`reading_again`), and a new one after that (`reading_anew`).
-/

namespace Phrasebook

/-! ## Shelves -/

namespace Shelf

variable {κ : Type} [DecidableEq κ] {s : Shelf κ} {key : κ} {tree : Table} {n : Nat}

/-- A catalog that is given is on the shelf afterwards. -/
theorem get?_held_consult {issue : Issue} (h : (s.consult key tree).2.outcome = .ok issue) :
    Ordered.get? key (s.consult key tree).1.held.entries = some issue := by
  rcases s.consult_cases key tree with ⟨held, hheld, hc⟩ | ⟨hnone, ⟨fault, -, hc⟩ | ⟨catalog, -, hc⟩⟩
  · rw [hc] at h ⊢
    cases h
    exact hheld
  · rw [hc] at h
    cases h
  · rw [hc] at h ⊢
    cases h
    have hroom : key ∉ Ordered.keys s.held.makeRoom := fun hk =>
      Ordered.get?_eq_none_iff.1 hnone (List.map_subset _ s.held.makeRoom_subset hk)
    show Ordered.get? key (s.held.makeRoom ++ [(key, (⟨s.made, catalog⟩ : Issue))]) = _
    rw [← Ordered.put_of_not_mem hroom, Ordered.get?_put, if_pos rfl]

/-- The catalogs on a shelf have been made since there were `n` of them. -/
structure Since (n : Nat) (s : Shelf κ) : Prop where
  made : n ≤ s.made
  held : ∀ entry ∈ s.held.entries, n ≤ entry.2.number

/-- The catalogs on a shelf are numbered like the ones that have been made. -/
def Numbered (s : Shelf κ) : Prop := ∀ entry ∈ s.held.entries, entry.2.number < s.made

omit [DecidableEq κ] in
theorem Since.clear (h : n ≤ s.made) : s.clear.Since n := ⟨h, fun entry hentry => by cases hentry⟩

theorem made_le_made_consult (s : Shelf κ) (key : κ) (tree : Table) : s.made ≤ (s.consult key tree).1.made := by
  rcases s.consult_cases key tree with ⟨_, -, hc⟩ | ⟨-, ⟨_, -, hc⟩ | ⟨catalog, -, hc⟩⟩
  · exact Nat.le_of_eq (by rw [hc])
  · exact Nat.le_of_eq (by rw [hc])
  · rw [hc]
    exact Nat.le_succ _

theorem Since.consult (h : s.Since n) (key : κ) (tree : Table) : (s.consult key tree).1.Since n := by
  rcases s.consult_cases key tree with ⟨_, -, hc⟩ | ⟨-, ⟨_, -, hc⟩ | ⟨catalog, -, hc⟩⟩
  · rwa [hc]
  · rwa [hc]
  · rw [hc]
    refine ⟨Nat.le_succ_of_le h.made, fun entry hentry => ?_⟩
    rcases Fifo.mem_entries_insert hentry with hentry | rfl
    · exact h.held entry hentry
    · exact h.made

theorem Numbered.consult (h : s.Numbered) (key : κ) (tree : Table) : (s.consult key tree).1.Numbered := by
  rcases s.consult_cases key tree with ⟨_, -, hc⟩ | ⟨-, ⟨_, -, hc⟩ | ⟨catalog, -, hc⟩⟩
  · rwa [hc]
  · rwa [hc]
  · rw [hc]
    intro entry hentry
    rcases Fifo.mem_entries_insert hentry with hentry | rfl
    · exact Nat.lt_succ_of_lt (h entry hentry)
    · exact Nat.lt_succ_self _

end Shelf

/-! ## Books -/

namespace Book

variable {b : Book}

/-- What asking for the catalog answers. -/
def reading (b : Book) : Except Fault Issue := b.catalog.2.outcome

/-- The book with the shelf as it is after its catalog has been asked for. -/
theorem shelf_catalog (b : Book) : b.catalog.1.shelf = b.shelf ∨
    ∃ locale tree, b.representative? = some (locale, tree) ∧ b.catalog.1.shelf = (b.shelf.consult locale tree).1 := by
  unfold catalog
  cases hr : b.representative? with
  | none => exact Or.inl rfl
  | some found =>
    obtain ⟨locale, tree⟩ := found
    exact Or.inr ⟨locale, tree, rfl, rfl⟩

/-- A catalog that is read is on the shelf afterwards, for the representative locale. -/
theorem held_of_reading {issue : Issue} (h : b.reading = .ok issue) : ∃ locale tree,
    b.representative? = some (locale, tree) ∧
      Ordered.get? locale b.catalog.1.shelf.held.entries = some issue := by
  unfold reading catalog at h
  unfold catalog
  cases hr : b.representative? with
  | none =>
    rw [hr] at h
    cases h
  | some found =>
    obtain ⟨locale, tree⟩ := found
    rw [hr] at h
    exact ⟨locale, tree, rfl, Shelf.get?_held_consult h⟩

/-- A catalog that is on the shelf for the representative locale is read, and nothing changes. -/
theorem catalog_of_held {locale : String} {tree : Table} {issue : Issue}
    (hr : b.representative? = some (locale, tree)) (h : Ordered.get? locale b.shelf.held.entries = some issue) :
    b.catalog = (b, pure issue) := by
  simp only [catalog, hr, Shelf.consult_of_held h]

/-! ## The representative locale -/

/-- The representative tree depends only on the trees of the locales and on the default locale. -/
theorem representative?_congr {b' : Book} (heditions : b'.editions = b.editions)
    (hdefault : b'.defaultLocale = b.defaultLocale) : b'.representative? = b.representative? := by
  unfold representative?
  rw [heditions, hdefault]

/-- The tree of the default locale is the representative one if there is one. -/
theorem representative?_of_default {edition : Edition} (h : b.editions.get? b.defaultLocale = some edition) :
    b.representative? = some (b.defaultLocale, edition.tree) := by
  rw [representative?, h]

/-- Else it is that of the first locale. -/
theorem representative?_of_first (h : b.editions.get? b.defaultLocale = none) {locale : String}
    (hl : b.locales.head? = some locale) : ∃ edition, b.editions.get? locale = some edition ∧
      b.representative? = some (locale, edition.tree) := by
  unfold representative? locales Ordered.keys at *
  rw [h]
  cases he : b.editions with
  | nil =>
    rw [he] at hl
    cases hl
  | cons first rest =>
    obtain ⟨locale', edition⟩ := first
    rw [he] at hl
    cases hl
    exact ⟨edition, by simp [Ordered.get?], rfl⟩

/-- Loads only add locales behind those that there are. -/
theorem head?_locales_loadAll (trees : List (String × Table)) : ∀ b : Book, (b.loadAll trees).1.locales.head? =
    b.locales.head?.or ((b.loadsOfAll trees).head?.map Load.locale) := by
  induction trees with
  | nil =>
    intro b
    exact Option.or_none.symm
  | cons item trees ih =>
    intro b
    obtain ⟨locale, tree⟩ := item
    unfold loadAll loadsOfAll
    cases h : b.load locale tree with
    | error fault => exact Option.or_none.symm
    | ok b' =>
      have hfirst : b'.locales.head? = b.locales.head?.or (some locale) := by
        obtain ⟨edition, -, -, rfl⟩ := load_eq_ok h
        exact Ordered.head?_keys_put ..
      show (b'.loadAll trees).1.locales.head? = _
      rw [ih, hfirst, Option.or_assoc]
      rfl

/-- Where no tree is loaded the book stays as it is, and else the shelf is empty. -/
theorem shelf_loadAll (trees : List (String × Table)) : ∀ b : Book,
    b.loadsOfAll trees = [] ∧ (b.loadAll trees).1 = b ∨
      b.loadsOfAll trees ≠ [] ∧ (b.loadAll trees).1.shelf = b.shelf.clear := by
  induction trees with
  | nil => exact fun b => Or.inl ⟨rfl, rfl⟩
  | cons item trees ih =>
    intro b
    obtain ⟨locale, tree⟩ := item
    unfold loadAll loadsOfAll
    cases h : b.load locale tree with
    | error fault => exact Or.inl ⟨rfl, rfl⟩
    | ok b' =>
      refine Or.inr ⟨List.cons_ne_nil _ _, ?_⟩
      obtain ⟨edition, -, -, rfl⟩ := load_eq_ok h
      rcases ih _ with ⟨-, h⟩ | ⟨-, h⟩
      · exact congrArg Book.shelf h
      · exact h

end Book

/-! ## Steps -/

namespace Session

variable {s : Session} {n : Nat}

/-- All that a step can do to the shelf: if nothing is loaded, it is as it was or the catalog has been asked for; and
else it is empty. -/
theorem shelf_run (hs : s.book.Sound) (step : Step) :
    (s.loadsOf step = [] ∧ (s.run step).1.book.editions = s.book.editions ∧
        ((s.run step).1.book.defaultLocale = s.book.defaultLocale ∨ ∃ locale, step = .setDefault locale ∧
          (s.run step).1.book.defaultLocale = locale) ∧
        ((s.run step).1.book.shelf = s.book.shelf ∨ (s.run step).1.book.shelf = s.book.catalog.1.shelf)) ∨
      s.loadsOf step ≠ [] ∧ (s.run step).1.book.shelf = s.book.shelf.clear := by
  rcases s.run_cases step with ⟨-, trees, hloads, hbook, -⟩ | ⟨key, locale, values, scope, rfl⟩ | rfl | ⟨locale, rfl⟩
  · rw [hloads, hbook]
    rcases Book.shelf_loadAll trees s.book with ⟨hnone, h⟩ | h
    · rw [h]
      exact Or.inl ⟨hnone, rfl, Or.inl rfl, Or.inl rfl⟩
    · exact Or.inr h
  · left
    show _ ∧ (s.book.answer _).1.editions = _ ∧ ((s.book.answer _).1.defaultLocale = _ ∨ _) ∧
      ((s.book.answer _).1.shelf = _ ∨ (s.book.answer _).1.shelf = _)
    rw [Book.editions_answer hs, Book.defaultLocale_answer hs]
    refine ⟨rfl, rfl, Or.inl rfl, ?_⟩
    rcases Book.answer_fst hs (s.book.callOf key locale values scope) with h | h | ⟨text, -, h⟩
    · exact Or.inl (by rw [h])
    · exact Or.inr (by rw [h])
    · exact Or.inr (by rw [h])
  · exact Or.inl ⟨rfl, Book.editions_catalog _, Or.inl (Book.defaultLocale_catalog _), Or.inr rfl⟩
  · exact Or.inl ⟨rfl, rfl, Or.inr ⟨locale, rfl, rfl⟩, Or.inl rfl⟩

/-- What holds of a shelf, and is kept when it is asked for a catalog or cleared, is kept by every step. -/
theorem shelf_run_induct {P : Shelf String → Prop}
    (consult : ∀ (shelf : Shelf String) locale tree, P shelf → P (shelf.consult locale tree).1)
    (clear : ∀ shelf, P shelf → P shelf.clear) (hs : s.book.Sound) (step : Step) (h : P s.book.shelf) :
    P (s.run step).1.book.shelf := by
  rcases shelf_run hs step with ⟨-, -, -, hshelf | hshelf⟩ | ⟨-, hshelf⟩
  · rwa [hshelf]
  · rw [hshelf]
    rcases s.book.shelf_catalog with hc | ⟨locale, tree, -, hc⟩
    · rwa [hc]
    · rw [hc]
      exact consult _ locale tree h
  · rw [hshelf]
    exact clear _ h

/-- And so is it by every run. -/
theorem shelf_after_induct {P : Shelf String → Prop}
    (consult : ∀ (shelf : Shelf String) locale tree, P shelf → P (shelf.consult locale tree).1)
    (clear : ∀ shelf, P shelf → P shelf.clear) (hs : s.Reachable) (steps : List Step) (h : P s.book.shelf) :
    P (s.after steps).book.shelf := by
  induction steps using List.reverseRecOn with
  | nil => exact h
  | append_singleton steps step ih =>
    rw [after_concat]
    exact shelf_run_induct consult clear (hs.after steps).sound step ih

/-! ## Runs -/

/-- The first locale of a book stays the first, and if there was none it is that of the first load. -/
theorem head?_locales_after (hs : s.Reachable) (steps : List Step) : (s.after steps).book.locales.head? =
    s.book.locales.head?.or ((s.loads steps).head?.map Load.locale) := by
  induction steps generalizing s with
  | nil => exact Option.or_none.symm
  | cons step steps ih =>
    have hstep : (s.run step).1.book.locales.head? =
        s.book.locales.head?.or ((s.loadsOf step).head?.map Load.locale) := by
      rcases s.run_cases step with ⟨-, trees, hloads, hbook, -⟩ | ⟨key, locale, values, scope, rfl⟩ | rfl |
        ⟨locale, rfl⟩
      · rw [hloads, hbook]
        exact Book.head?_locales_loadAll trees s.book
      · show (s.book.answer _).1.locales.head? = _
        rw [Book.locales, Book.editions_answer hs.sound]
        exact Option.or_none.symm
      · show s.book.catalog.1.locales.head? = _
        rw [Book.locales, Book.editions_catalog]
        exact Option.or_none.symm
      · exact Option.or_none.symm
    have hrest := ih (s := (s.run step).1) (hs.after [step])
    rw [loads, List.head?_append, Option.map_or, ← Option.or_assoc, ← hstep]
    exact hrest

/-- A catalog that is on the shelf for the representative locale is read until something is loaded or the default locale
is another one. -/
theorem reading_of_held {locale : String} {tree : Table} {issue : Issue} {steps : List Step} (hs : s.Reachable)
    (hr : s.book.representative? = some (locale, tree))
    (hheld : Ordered.get? locale s.book.shelf.held.entries = some issue) (hloads : s.loads steps = [])
    (hdefault : ∀ other, .setDefault other ∈ steps → other = s.book.defaultLocale) :
    (s.after steps).book.reading = .ok issue := by
  induction steps generalizing s with
  | nil => rw [after_nil, Book.reading, Book.catalog_of_held hr hheld]; rfl
  | cons step steps ih =>
    obtain ⟨hnone, hrest⟩ := List.append_eq_nil_iff.1 hloads
    rcases shelf_run hs.sound step with ⟨-, heditions, hd, hshelf⟩ | ⟨hne, -⟩
    · have hshelf : (s.run step).1.book.shelf = s.book.shelf := by
        rcases hshelf with hshelf | hshelf
        · exact hshelf
        · rw [hshelf, Book.catalog_of_held hr hheld]
      have hd : (s.run step).1.book.defaultLocale = s.book.defaultLocale := by
        rcases hd with hd | ⟨other, rfl, hd⟩
        · exact hd
        · rw [hd]
          exact hdefault other List.mem_cons_self
      refine ih (s := (s.run step).1) (hs.after [step]) ?_ ?_ hrest fun other hother => ?_
      · rw [Book.representative?_congr heditions hd, hr]
      · rwa [hshelf]
      · rw [hd]
        exact hdefault other (List.mem_cons_of_mem _ hother)
    · exact absurd hnone hne

/-- **A catalog that has been read is read again** until something is loaded or the default locale is another one. -/
theorem reading_again {issue : Issue} {steps : List Step} (hs : s.Reachable) (h : s.book.reading = .ok issue)
    (hloads : (s.run .catalog).1.loads steps = [])
    (hdefault : ∀ other, .setDefault other ∈ steps → other = s.book.defaultLocale) :
    ((s.run .catalog).1.after steps).book.reading = .ok issue := by
  obtain ⟨locale, tree, hr, hheld⟩ := Book.held_of_reading h
  have hd : (s.run .catalog).1.book.defaultLocale = s.book.defaultLocale := Book.defaultLocale_catalog _
  have hr' : (s.run .catalog).1.book.representative? = some (locale, tree) :=
    (Book.representative?_congr (Book.editions_catalog _) hd).trans hr
  exact reading_of_held (hs.after [.catalog]) hr' hheld hloads fun other hother => (hdefault other hother).trans hd.symm

/-- After a run in which something is loaded, the shelf holds only catalogs that have been made in it. -/
theorem since_after {steps : List Step} (hs : s.Reachable) (hn : n ≤ s.book.shelf.made) (h : s.loads steps ≠ []) :
    (s.after steps).book.shelf.Since n := by
  induction steps generalizing s with
  | nil => exact absurd rfl h
  | cons step steps ih =>
    have hs' : (s.run step).1.Reachable := hs.after [step]
    by_cases hnone : s.loadsOf step = []
    · rw [loads, hnone] at h
      refine ih hs' ?_ h
      exact shelf_run_induct (P := fun shelf => n ≤ shelf.made)
        (fun shelf locale tree h => Nat.le_trans h (shelf.made_le_made_consult locale tree)) (fun _ h => h) hs.sound
        step hn
    · rcases shelf_run hs.sound step with ⟨hnone', -⟩ | ⟨-, hshelf⟩
      · exact absurd hnone' hnone
      · refine shelf_after_induct (P := Shelf.Since n) (fun _ locale tree h => h.consult locale tree)
          (fun _ h => Shelf.Since.clear h.made) hs' steps ?_
        rw [hshelf]
        exact Shelf.Since.clear hn

/-- A session that begins with nothing. -/
theorem start_nothing_eq_ok {folder : Folder} {defaultLocale : String} {options : Options} {capacity : Int}
    {repository : Plural.Repository} {empty : Session}
    (h : start folder defaultLocale options capacity .nothing repository = .ok empty) :
    empty.Reachable ∧ empty.book.locales = [] ∧ empty.book.shelf.options = options ∧
      empty.book.shelf.held.entries = [] := by
  refine ⟨Initial.reachable ⟨_, _, _, _, _, _, h⟩, ?_⟩
  obtain ⟨b, hb, h⟩ := bind_eq_ok_iff.1 h
  cases h
  obtain ⟨_, rfl⟩ := Book.ofCapacity_eq_ok hb
  exact ⟨rfl, rfl, rfl⟩

/-- The catalogs on the shelf of a session are numbered like the ones that have been made. -/
theorem Reachable.numbered (hs : s.Reachable) : s.book.shelf.Numbered := by
  obtain ⟨first, steps, ⟨_, _, _, _, opening, _, h⟩, rfl⟩ := hs
  obtain ⟨empty, hempty, rfl⟩ := start_eq_ok h
  obtain ⟨hr, -, -, hheld⟩ := start_nothing_eq_ok hempty
  rw [← after_append]
  refine shelf_after_induct (P := Shelf.Numbered) (fun _ locale tree h => h.consult locale tree)
    (fun _ _ entry hentry => by cases hentry) hr _ ?_
  intro entry hentry
  rw [hheld] at hentry
  cases hentry

/-- **A catalog that is read after a load is a new one.** -/
theorem reading_anew {issue issue' : Issue} {steps : List Step} (hs : s.Reachable) (h : s.book.reading = .ok issue)
    (hloads : (s.run .catalog).1.loads steps ≠ [])
    (h' : ((s.run .catalog).1.after steps).book.reading = .ok issue') : issue.number < issue'.number := by
  have hs' : (s.run .catalog).1.Reachable := hs.after [.catalog]
  obtain ⟨locale, -, -, hheld⟩ := Book.held_of_reading h
  obtain ⟨locale', -, -, hheld'⟩ := Book.held_of_reading h'
  have hold : issue.number < (s.run .catalog).1.book.shelf.made := hs'.numbered _ (Ordered.mem_of_get? hheld)
  have hsince : ((s.run .catalog).1.after steps).book.catalog.1.shelf.Since (s.run .catalog).1.book.shelf.made :=
    shelf_run_induct (P := Shelf.Since _) (fun _ locale tree h => h.consult locale tree)
      (fun _ h => Shelf.Since.clear h.made) (hs'.after steps).sound .catalog (since_after hs' (Nat.le_refl _) hloads)
  exact Nat.lt_of_lt_of_le hold (hsince.held _ (Ordered.mem_of_get? hheld'))

/-- Whose catalog is read after some loads, and that it is the one that is made afresh of the present tree: that of the
default locale if it is loaded, and else that of the locale that was loaded first. If nothing was loaded there is
none. -/
structure Current (s : Session) (options : Options) (loads : List Load) : Prop where
  ofDefault : ∀ edition, s.book.editions.get? s.book.defaultLocale = some edition →
    s.book.reading.map Issue.catalog = (Catalog.ofTable options edition.tree).outcome
  ofFirst : s.book.editions.get? s.book.defaultLocale = none → ∀ first, loads.head? = some first →
    ∃ edition, s.book.editions.get? first.locale = some edition ∧
      s.book.reading.map Issue.catalog = (Catalog.ofTable options edition.tree).outcome
  ofNone : loads = [] → s.book.reading = .error .noLocales

/-- **What is read is current.** -/
theorem current_after {folder : Folder} {defaultLocale : String} {options : Options} {capacity : Int}
    {repository : Plural.Repository} {empty : Session}
    (h : start folder defaultLocale options capacity .nothing repository = .ok empty) (steps : List Step) :
    (empty.after steps).Current options (empty.loads steps) := by
  obtain ⟨hr, hlocales, hoptions, -⟩ := start_nothing_eq_ok h
  have hfresh := Book.outcome_catalog (hr.after steps).sound
  have hoptions : (empty.after steps).book.shelf.options = options :=
    shelf_after_induct (P := fun shelf => shelf.options = options)
      (fun shelf locale tree h => (shelf.options_consult locale tree).trans h) (fun _ h => h) hr steps hoptions
  have hfirst := head?_locales_after hr steps
  rw [hlocales, List.head?_nil, Option.none_or] at hfirst
  unfold Book.analysis at hfresh
  rw [hoptions] at hfresh
  refine ⟨fun edition he => ?_, fun hnone first hhead => ?_, fun hnil => ?_⟩
  · rw [Book.representative?_of_default he] at hfresh
    exact hfresh
  · rw [hhead] at hfirst
    obtain ⟨edition, he, hrep⟩ := Book.representative?_of_first hnone hfirst
    rw [hrep] at hfresh
    exact ⟨edition, he, hfresh⟩
  · rw [hnil] at hfirst
    have heditions : (empty.after steps).book.editions = [] := List.map_eq_nil_iff.1 (List.head?_eq_none_iff.1 hfirst)
    have hrep : (empty.after steps).book.representative? = none := by
      rw [Book.representative?, heditions]
      rfl
    rw [Book.reading, Book.catalog, hrep]
    rfl

end Session

end Phrasebook
