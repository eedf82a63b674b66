import Phrasebook.Proofs.Book.Writing
import Phrasebook.Proofs.Shelf

/-!
# Sound phrase books

In a sound book (`Book.Sound`) the texts of every locale are the leaves of its phrase tree, the catalogs on the shelf
are those of the present trees, and every remembered text is still what some contract writes from the texts of its
locale.

* `load_eq`: a load puts the edition of a tree into the book, or fails.
* Each operation keeps a book sound: `Sound.load`, `Sound.catalog`, `Sound.answer`, `Sound.withDefault`.
* `outcome_catalog`: the catalog of a sound book is the one that would be made afresh.
* `answer_fst` is all that a call can do to a book, and `answer_of_miss` what a call that is not remembered is
  answered.
-/

namespace Phrasebook

/-- The texts of an edition are the leaves of its phrase tree. -/
def Edition.Sound (limit : Int) (e : Edition) : Prop :=
  ∃ entries, Table.leaves limit e.tree = .ok entries ∧ e.texts = entries.map fun entry => (entry.path, entry.value)

/-- The edition of a phrase tree. -/
def Edition.ofTable (limit : Int) (tree : Table) : Except Fault Edition :=
  (Table.leaves limit tree).map fun entries => { tree, texts := entries.map fun entry => (entry.path, entry.value) }

namespace Book

variable {b b' : Book}

/-- The phrase tree of a locale. -/
def treeOf (b : Book) (locale : String) : Option Table := (b.editions.get? locale).map Edition.tree

/-- A text still stands for a call: some contract writes it from the texts that the locale has now. -/
def Stands (b : Book) (call : Call) (text : String) : Prop :=
  call.unhashable? = none ∧ ∃ edition contract, b.editions.get? call.locale = some edition ∧
    Writes b.repository contract edition.texts call text

/-- What holds of a book whatever has been done with it. -/
structure Sound (b : Book) : Prop where
  edition : ∀ locale edition, b.editions.get? locale = some edition → edition.Sound b.shelf.options.maxDepth
  shelf : b.shelf.Sound b.treeOf
  memo : ∀ call text, (call, text) ∈ b.memo.entries → b.Stands call text

/-- What an empty book is: it has no locales, and nothing is remembered or on the shelf. -/
theorem ofCapacity_eq_ok {repository : Plural.Repository} {defaultLocale : String} {options : Options} {capacity : Int}
    (h : Book.ofCapacity defaultLocale options capacity repository = .ok b) : ∃ hc : 0 < capacity.toNat,
      b = { repository, defaultLocale, memo := Fifo.empty capacity.toNat hc
            shelf := { options, held := Fifo.empty shelfCapacity (by decide) } } := by
  unfold Book.ofCapacity Fifo.ofCapacity at h
  split at h
  · next hc =>
    cases h
    exact ⟨hc, rfl⟩
  · cases h

/-- An empty book is sound. -/
theorem sound_of_ofCapacity {repository : Plural.Repository} {defaultLocale : String} {options : Options}
    {capacity : Int} (h : Book.ofCapacity defaultLocale options capacity repository = .ok b) : b.Sound := by
  obtain ⟨_, rfl⟩ := ofCapacity_eq_ok h
  exact ⟨fun _ _ h => (by cases h), fun _ _ h => (by cases h), fun _ _ h => (by cases h)⟩

/-! ## Loading -/

/-- The book with a new edition of a locale. -/
def enter (b : Book) (locale : String) (edition : Edition) : Book :=
  { b with editions := b.editions.put locale edition
           shelf := b.shelf.clear
           memo := b.memo.keep fun call => call.locale ≠ locale }

theorem get?_editions_enter (b : Book) (locale other : String) (edition : Edition) :
    (b.enter locale edition).editions.get? other = if locale = other then some edition else b.editions.get? other :=
  Ordered.get?_put ..

/-- A load puts the edition of a tree into the book: the loaded one over what lay below it. -/
theorem load_eq (b : Book) (locale : String) (tree : Table) : b.load locale tree =
    (Edition.ofTable b.shelf.options.maxDepth (Table.overlay (b.base locale) tree)).map (b.enter locale) := by
  unfold load Edition.ofTable
  dsimp only
  cases Table.leaves b.shelf.options.maxDepth (Table.overlay (b.base locale) tree) <;> rfl

theorem load_eq_ok_iff {locale : String} {tree : Table} : b.load locale tree = .ok b' ↔
    ∃ edition, Edition.ofTable b.shelf.options.maxDepth (Table.overlay (b.base locale) tree) = .ok edition ∧
      b.enter locale edition = b' := by
  rw [load_eq, map_eq_ok_iff]

/-- What loading does: the edition of the locale is new, the shelf is cleared, and the texts of the locale are
forgotten. -/
theorem load_eq_ok {locale : String} {tree : Table} (h : b.load locale tree = .ok b') :
    ∃ edition : Edition, edition.Sound b.shelf.options.maxDepth ∧
      edition.tree = Table.overlay (b.base locale) tree ∧
      b' = { b with editions := b.editions.put locale edition
                    shelf := b.shelf.clear
                    memo := b.memo.keep fun call => call.locale ≠ locale } := by
  obtain ⟨edition, he, rfl⟩ := load_eq_ok_iff.1 h
  obtain ⟨entries, hl, rfl⟩ := map_eq_ok_iff.1 he
  exact ⟨_, ⟨entries, hl, rfl⟩, rfl, rfl⟩

/-- Loading leaves the repository alone. -/
theorem repository_load {locale : String} {tree : Table} (h : b.load locale tree = .ok b') :
    b'.repository = b.repository := by
  obtain ⟨edition, -, -, rfl⟩ := load_eq_ok h
  rfl

/-- Loading leaves the editions of other locales alone. -/
theorem get?_editions_load {locale locale' : String} {tree : Table} (h : b.load locale tree = .ok b')
    (hne : locale' ≠ locale) : b'.editions.get? locale' = b.editions.get? locale' := by
  obtain ⟨edition, -, -, rfl⟩ := load_eq_ok h
  rw [Ordered.get?_put, if_neg hne.symm]

/-- Loading forgets the texts of the locale and no others. -/
theorem mem_memo_load {locale : String} {tree : Table} (h : b.load locale tree = .ok b') {entry : Call × String} :
    entry ∈ b'.memo.entries ↔ entry ∈ b.memo.entries ∧ entry.1.locale ≠ locale := by
  obtain ⟨edition, -, -, rfl⟩ := load_eq_ok h
  rw [Fifo.mem_entries_keep, decide_eq_true_iff]

theorem Sound.load (hs : b.Sound) {locale : String} {tree : Table} (h : b.load locale tree = .ok b') : b'.Sound := by
  refine ⟨?_, ?_, ?_⟩
  · intro locale' edition' he
    obtain ⟨edition, hsound, -, rfl⟩ := load_eq_ok h
    rw [Ordered.get?_put] at he
    split at he
    · cases he
      exact hsound
    · exact hs.edition locale' edition' he
  · obtain ⟨edition, -, -, rfl⟩ := load_eq_ok h
    exact Shelf.Sound.clear _ _
  · intro call text hm
    obtain ⟨hm, hne⟩ := (mem_memo_load h).1 hm
    obtain ⟨hu, edition, contract, he, hw⟩ := hs.memo call text hm
    exact ⟨hu, edition, contract, (get?_editions_load h hne).trans he, by rwa [repository_load h]⟩

/-! ## Making the catalog -/

@[simp] theorem editions_catalog (b : Book) : b.catalog.1.editions = b.editions := by
  unfold catalog
  split <;> rfl

@[simp] theorem repository_catalog (b : Book) : b.catalog.1.repository = b.repository := by
  unfold catalog
  split <;> rfl

@[simp] theorem memo_catalog (b : Book) : b.catalog.1.memo = b.memo := by
  unfold catalog
  split <;> rfl

@[simp] theorem defaultLocale_catalog (b : Book) : b.catalog.1.defaultLocale = b.defaultLocale := by
  unfold catalog
  split <;> rfl

@[simp] theorem options_catalog (b : Book) : b.catalog.1.shelf.options = b.shelf.options := by
  unfold catalog
  split
  · rfl
  · exact Shelf.options_consult _ _ _

@[simp] theorem treeOf_catalog (b : Book) : b.catalog.1.treeOf = b.treeOf := by
  funext locale
  simp [treeOf]

/-- The representative tree is that of its locale. -/
theorem treeOf_of_representative? {locale : String} {tree : Table} (h : b.representative? = some (locale, tree)) :
    b.treeOf locale = some tree := by
  unfold representative? at h
  split at h
  · next edition he =>
    cases h
    rw [treeOf, he]
    rfl
  · obtain ⟨⟨locale', edition⟩, he, h⟩ := Option.map_eq_some_iff.1 h
    cases h
    obtain ⟨rest, hr⟩ := List.head?_eq_some_iff.1 he
    rw [treeOf, hr]
    simp [Ordered.get?]

theorem Sound.catalog (hs : b.Sound) : b.catalog.1.Sound := by
  refine ⟨?_, ?_, ?_⟩
  · simpa using hs.edition
  · rw [treeOf_catalog]
    unfold Book.catalog
    split
    · exact hs.shelf
    · next hr => exact hs.shelf.consult (treeOf_of_representative? hr)
  · simpa [Stands] using hs.memo

/-- The catalog of a sound book is the one that would be made afresh. -/
theorem outcome_catalog (hs : b.Sound) : b.catalog.2.outcome.map Issue.catalog = b.analysis := by
  cases hr : b.representative? with
  | none => simp only [Book.catalog, analysis, hr]; rfl
  | some r =>
    obtain ⟨locale, tree⟩ := r
    simp only [Book.catalog, analysis, hr]
    exact Shelf.outcome_consult hs.shelf (treeOf_of_representative? hr)

/-- A call is written under the catalog of a sound book as under the one that would be made afresh. -/
theorem bind_outcome_catalog (hs : b.Sound) (texts : Ordered String Value) (call : Call) :
    (b.catalog.2.outcome.bind fun issue => write b.repository issue.catalog texts call) =
      b.analysis >>= fun c => write b.repository c texts call := by
  rw [← outcome_catalog hs]
  cases b.catalog.2.outcome <;> rfl

/-! ## Answering -/

/-- A call that is not remembered is written a text. -/
def Licenses (b : Book) (call : Call) (text : String) : Prop :=
  call.unhashable? = none ∧ ∃ edition contract, b.editions.get? call.locale = some edition ∧
    b.contractOf (Path.resolve call.key call.scope) = .ok contract ∧
      Writes b.repository contract edition.texts call text

theorem Licenses.stands {call : Call} {text : String} (h : b.Licenses call text) : b.Stands call text := by
  obtain ⟨hu, edition, contract, he, -, hw⟩ := h
  exact ⟨hu, edition, contract, he, hw⟩

/-- What a call is written under the catalog made afresh. -/
def rendering (b : Book) (call : Call) : Except Fault String :=
  match call.unhashable? with
  | some typeName => .error (.unhashable typeName)
  | none =>
    match b.editions.get? call.locale with
    | none => .error (.unknownLocale call.locale)
    | some edition => b.analysis >>= fun c => write b.repository c edition.texts call

theorem rendering_eq_ok_iff {call : Call} {text : String} : b.rendering call = .ok text ↔ b.Licenses call text := by
  unfold rendering Licenses contractOf
  cases call.unhashable? with
  | some typeName => simp
  | none =>
    cases b.editions.get? call.locale with
    | none => simp
    | some edition =>
      simp only [bind_eq_ok_iff, write_eq_ok_iff, true_and, Option.some.injEq]
      constructor
      · rintro ⟨c, hc, contract, hk, hw⟩
        exact ⟨edition, contract, rfl, bind_eq_ok_iff.2 ⟨c, hc, hk⟩, hw⟩
      · rintro ⟨_, contract, rfl, hk, hw⟩
        obtain ⟨c, hc, hk⟩ := bind_eq_ok_iff.1 hk
        exact ⟨c, hc, contract, hk, hw⟩

/-- What a call is answered when it is written so: a fault that is got over gives the key back. -/
def answered (call : Call) : Except Fault String → Except Fault String
  | .ok text => .ok text
  | .error fault => if escapes fault then .error fault else .ok call.key

theorem answered_error_of_escapes (call : Call) {fault : Fault} (h : escapes fault = true) :
    answered call (.error fault) = .error fault := by
  simp [answered, h]

theorem answered_error (call : Call) {fault : Fault} (h : escapes fault = false) :
    answered call (.error fault) = .ok call.key := by
  simp [answered, h]

theorem outcome_refuse (call : Call) (notices : List Notice) (fault : Fault) :
    (refuse call notices fault).outcome = answered call (.error fault) := by
  by_cases he : escapes fault = true <;> simp [refuse, answered, he]

/-- A call that is not remembered is written under the catalog made afresh, and what is written is remembered. -/
theorem answer_of_miss (hs : b.Sound) {call : Call} (hm : b.memo.find? call.same = none) :
    (b.answer call).2.outcome = answered call (b.rendering call) ∧
      ((b.answer call).1 = b ∨ (b.answer call).1 = b.catalog.1 ∨ ∃ text, b.Licenses call text ∧
        (b.answer call).1 = { b.catalog.1 with memo := b.memo.insert call text }) := by
  unfold answer rendering
  cases hu : call.unhashable? with
  | some typeName => exact ⟨outcome_refuse _ _ _, Or.inl rfl⟩
  | none =>
    simp only [hm]
    cases he : b.editions.get? call.locale with
    | none => exact ⟨outcome_refuse _ _ _, Or.inl rfl⟩
    | some edition =>
      simp only [repository_catalog, bind_outcome_catalog hs]
      cases hw : b.analysis >>= fun c => write b.repository c edition.texts call with
      | error fault => exact ⟨outcome_refuse _ _ _, Or.inr (Or.inl rfl)⟩
      | ok text =>
        refine ⟨rfl, Or.inr (Or.inr ⟨text, rendering_eq_ok_iff.1 ?_, ?_⟩)⟩
        · simp only [rendering, hu, he, hw]
        · rw [memo_catalog]

/-- All that answering a call can do to a book: make the catalog, and remember a text that it has written. -/
theorem answer_fst (hs : b.Sound) (call : Call) :
    (b.answer call).1 = b ∨ (b.answer call).1 = b.catalog.1 ∨ ∃ text, b.Licenses call text ∧
      (b.answer call).1 = { b.catalog.1 with memo := b.memo.insert call text } := by
  cases hm : b.memo.find? call.same with
  | none => exact (answer_of_miss hs hm).2
  | some text =>
    left
    unfold answer
    rw [hm]
    cases call.unhashable? <;> rfl

@[simp] theorem editions_answer (hs : b.Sound) (call : Call) : (b.answer call).1.editions = b.editions := by
  rcases answer_fst hs call with h | h | ⟨text, -, h⟩ <;> simp [h]

@[simp] theorem repository_answer (hs : b.Sound) (call : Call) : (b.answer call).1.repository = b.repository := by
  rcases answer_fst hs call with h | h | ⟨text, -, h⟩ <;> simp [h]

@[simp] theorem defaultLocale_answer (hs : b.Sound) (call : Call) :
    (b.answer call).1.defaultLocale = b.defaultLocale := by
  rcases answer_fst hs call with h | h | ⟨text, -, h⟩ <;> simp [h]

/-- A text that is remembered after a call was remembered before it, or it was written for the call. -/
theorem mem_memo_answer (hs : b.Sound) {call call' : Call} {text : String}
    (h : (call', text) ∈ (b.answer call).1.memo.entries) :
    (call', text) ∈ b.memo.entries ∨ call' = call ∧ b.Licenses call text := by
  rcases answer_fst hs call with hb | hb | ⟨text', hw, hb⟩
  · rw [hb] at h
    exact Or.inl h
  · rw [hb, memo_catalog] at h
    exact Or.inl h
  · rw [hb] at h
    rcases Fifo.mem_entries_insert h with h | h
    · exact Or.inl h
    · cases h
      exact Or.inr ⟨rfl, hw⟩

theorem Sound.answer (hs : b.Sound) (call : Call) : (b.answer call).1.Sound := by
  rcases answer_fst hs call with h | h | ⟨text, hw, h⟩
  · rw [h]
    exact hs
  · rw [h]
    exact hs.catalog
  · refine ⟨?_, ?_, fun call' text' hm => ?_⟩
    · rw [h]
      exact hs.catalog.edition
    · rw [h]
      exact hs.catalog.shelf
    · unfold Stands
      rw [editions_answer hs, repository_answer hs]
      rcases mem_memo_answer hs hm with hm | ⟨rfl, hw'⟩
      · exact hs.memo call' text' hm
      · exact hw'.stands

theorem Sound.withDefault (hs : b.Sound) (locale : String) : (b.withDefault locale).Sound :=
  ⟨hs.edition, hs.shelf, hs.memo⟩

end Book

end Phrasebook
