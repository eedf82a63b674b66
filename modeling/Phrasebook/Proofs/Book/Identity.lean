import Phrasebook.Proofs.Book.Representative
import Phrasebook.Proofs.Desk

/-!
# Phrase books and the identity of their trees

A book keeps catalogs by locale and clears its shelf with every load. This is as good as to keep them by the identity
of the trees, where every load makes a new document of the tree that it comes to.

* `Desk.Mirrors d b`: the desk `d` has a document for the tree of each locale of the book `b`, and the shelf of the desk
  holds for the documents what that of the book holds for their locales. Each operation of a book has its steps at the
  desk that keep this (`Mirrors.load`, `Mirrors.catalog`), and so has each run (`Session.mirrors_after`).
* `Session.catalog_never_stale`: the catalog that is read is current, it is the very same one until something is loaded,
  and it is the one that is read at the desk.
-/

namespace Phrasebook

/-! ## Shelves -/

namespace Shelf

/-- No two slots refer to the same document. -/
def Distinct (slots : Ordered String Nat) : Prop :=
  ∀ slot slot' n, slots.get? slot = some n → slots.get? slot' = some n → slot = slot'

/-- A catalog that is held for a document is held for the locale of which slots say that this is its document. -/
def Paired (slots : Ordered String Nat) (entry : Nat × Issue) (entry' : String × Issue) : Prop :=
  slots.get? entry'.1 = some entry.1 ∧ entry.2 = entry'.2

/-- A shelf of documents holds what a shelf of locales holds. -/
structure Mirrors (slots : Ordered String Nat) (s : Shelf Nat) (s' : Shelf String) : Prop where
  options : s.options = s'.options
  made : s.made = s'.made
  capacity : s.held.capacity = s'.held.capacity
  held : List.Forall₂ (Paired slots) s.held.entries s'.held.entries

variable {slots : Ordered String Nat} {s : Shelf Nat} {s' : Shelf String}

theorem Mirrors.clear (h : Mirrors slots s s') (slots' : Ordered String Nat) : Mirrors slots' s.clear s'.clear :=
  ⟨h.options, h.made, h.capacity, .nil⟩

/-- Where different locales have different documents, the same is found for a locale and its document. -/
theorem get?_of_paired {entries : List (Nat × Issue)} {entries' : List (String × Issue)}
    (h : List.Forall₂ (Paired slots) entries entries') (hdistinct : Distinct slots) {locale : String} {n : Nat}
    (hn : slots.get? locale = some n) : Ordered.get? n entries = Ordered.get? locale entries' := by
  induction h with
  | nil => rfl
  | @cons entry entry' entries entries' hentry _ ih =>
    obtain ⟨m, issue⟩ := entry
    obtain ⟨other, issue'⟩ := entry'
    obtain ⟨hm, rfl⟩ := hentry
    have hiff : m = n ↔ other = locale := by
      constructor
      · rintro rfl
        exact hdistinct _ _ _ hm hn
      · rintro rfl
        exact Option.some.inj (hm.symm.trans hn)
    simp only [Ordered.get?, hiff, ih]

/-- A catalog that has been made is held for the locale and for its document. -/
theorem Mirrors.add (h : Mirrors slots s s') {locale : String} {n : Nat} (hn : slots.get? locale = some n)
    (catalog : Catalog) : Mirrors slots (s.add n catalog) (s'.add locale catalog) := by
  refine ⟨h.options, congrArg Nat.succ h.made, h.capacity, ?_⟩
  have hroom : List.Forall₂ (Paired slots) s.held.makeRoom s'.held.makeRoom := by
    rw [Fifo.makeRoom_eq, Fifo.makeRoom_eq, h.capacity, h.held.length_eq]
    split
    · exact List.forall₂_drop _ h.held
    · exact h.held
  refine List.rel_append hroom (.cons ⟨hn, ?_⟩ .nil)
  rw [h.made]

/-- Shelves that hold the same answer the same for a locale and for its document, and then hold the same. -/
theorem Mirrors.consult (h : Mirrors slots s s') (hdistinct : Distinct slots) {locale : String} {n : Nat}
    (hn : slots.get? locale = some n) (tree : Table) :
    Mirrors slots (s.consult n tree).1 (s'.consult locale tree).1 ∧
      (s.consult n tree).2 = (s'.consult locale tree).2 := by
  have hheld := get?_of_paired h.held hdistinct hn
  rcases s'.consult_cases locale tree with ⟨issue, hi, hc⟩ | ⟨hnone, ⟨fault, ho, hc⟩ | ⟨catalog, ho, hc⟩⟩
  · rw [hc, consult_of_held (hheld.trans hi)]
    exact ⟨h, rfl⟩
  · rw [← h.options] at ho
    rw [hc, consult_of_error (hheld.trans hnone) ho, h.options]
    exact ⟨h, rfl⟩
  · rw [← h.options] at ho
    rw [hc, consult_of_ok (hheld.trans hnone) ho, h.options, h.made]
    exact ⟨h.add hn catalog, rfl⟩

end Shelf

/-! ## Books -/

namespace Desk

variable {d : Desk} {b b' : Book}

/-- A desk mirrors a book: the tree of each locale is in a document of its own, to which the slot of the locale refers,
and the shelf of the desk holds for the documents what that of the book holds for the locales. -/
structure Mirrors (d : Desk) (b : Book) : Prop where
  document : ∀ locale edition, b.editions.get? locale = some edition → ∃ n, d.document? locale = some (n, edition.tree)
  placed : ∀ slot n, d.slots.get? slot = some n → n < d.documents.length
  distinct : Shelf.Distinct d.slots
  shelf : Shelf.Mirrors d.slots d.shelf b.shelf

/-- A mirrored book may remember something else and have another default locale. -/
theorem Mirrors.congr (h : d.Mirrors b) (heditions : b'.editions = b.editions) (hshelf : b'.shelf = b.shelf) :
    d.Mirrors b' := by
  refine ⟨?_, h.placed, h.distinct, ?_⟩
  · rw [heditions]
    exact h.document
  · rw [hshelf]
    exact h.shelf

/-- A load makes a new document of the tree that it comes to, and clears the shelf. -/
theorem Mirrors.load (h : d.Mirrors b) {locale : String} {tree : Table} (hb : b.load locale tree = .ok b') :
    (d.after [.define locale (Table.overlay (b.base locale) tree), .clear]).Mirrors b' := by
  obtain ⟨edition, -, htree, rfl⟩ := Book.load_eq_ok hb
  let d' := d.after [.define locale (Table.overlay (b.base locale) tree), .clear]
  have hslots : d'.slots = d.slots.put locale d.documents.length := rfl
  have hdocuments : d'.documents = d.documents ++ [Table.overlay (b.base locale) tree] := rfl
  -- a slot refers to the new document or, as before, to an old one
  have hslot : ∀ slot n, d'.slots.get? slot = some n →
      (slot = locale ∧ n = d.documents.length) ∨ (slot ≠ locale ∧ d.slots.get? slot = some n) := by
    intro slot n hn
    rw [hslots, Ordered.get?_put] at hn
    split at hn
    · next heq => exact Or.inl ⟨heq.symm, (Option.some.inj hn).symm⟩
    · next hne => exact Or.inr ⟨Ne.symm hne, hn⟩
  refine ⟨?_, ?_, ?_, h.shelf.clear _⟩
  · intro other edition' he
    show ∃ n, d'.document? other = _
    simp only [document?_eq_some_iff, hslots, hdocuments, Ordered.get?_put] at he ⊢
    split at he
    · next heq =>
      cases he
      refine ⟨d.documents.length, if_pos heq, ?_⟩
      rw [List.getElem?_concat_length, htree]
    · next hne =>
      obtain ⟨n, hn⟩ := h.document other edition' he
      obtain ⟨hn, hcontent⟩ := document?_eq_some_iff.1 hn
      refine ⟨n, (if_neg hne).trans hn, ?_⟩
      rw [List.getElem?_append_left (h.placed other n hn), hcontent]
  · intro slot n hn
    show n < d'.documents.length
    rw [hdocuments, List.length_append, List.length_singleton]
    rcases hslot slot n hn with ⟨-, rfl⟩ | ⟨-, hn⟩
    · exact Nat.lt_succ_self _
    · exact Nat.lt_succ_of_lt (h.placed slot n hn)
  · intro slot slot' n hn hn'
    rcases hslot slot n hn with ⟨rfl, rfl⟩ | ⟨-, hold⟩
    · rcases hslot slot' _ hn' with ⟨rfl, -⟩ | ⟨-, hold'⟩
      · rfl
      · exact absurd (h.placed slot' _ hold') (Nat.lt_irrefl _)
    · rcases hslot slot' n hn' with ⟨rfl, rfl⟩ | ⟨-, hold'⟩
      · exact absurd (h.placed slot _ hold) (Nat.lt_irrefl _)
      · exact h.distinct slot slot' n hold hold'

/-- The catalog that a book reads is the one that is given at the desk for the slot of the representative locale. -/
theorem Mirrors.catalog (h : d.Mirrors b) {locale : String} {tree : Table}
    (hr : b.representative? = some (locale, tree)) : (d.run (.consult locale)).1.Mirrors b.catalog.1 ∧
      ∃ held, (d.run (.consult locale)).2.outcome = b.reading.map fun issue => .issue issue held := by
  obtain ⟨edition, he, rfl⟩ := Option.map_eq_some_iff.1 (Book.treeOf_of_representative? hr)
  obtain ⟨n, hn⟩ := h.document locale edition he
  obtain ⟨hshelf, haudit⟩ := h.shelf.consult h.distinct (document?_eq_some_iff.1 hn).1 edition.tree
  have hrun : d.run (.consult locale) = ({ d with shelf := (d.shelf.consult n edition.tree).1 },
      (d.shelf.consult n edition.tree).2.andThen fun issue =>
        pure (.issue issue (d.shelf.consult n edition.tree).1.held.size)) := by
    simp only [run, hn]
  have hcatalog : b.catalog = ({ b with shelf := (b.shelf.consult locale edition.tree).1 },
      (b.shelf.consult locale edition.tree).2) := by
    simp only [Book.catalog, hr]
  rw [Book.reading, hrun, hcatalog, haudit]
  refine ⟨⟨h.document, h.placed, h.distinct, hshelf⟩, (d.shelf.consult n edition.tree).1.held.size, ?_⟩
  cases (b.shelf.consult locale edition.tree).2 with
  | mk findings outcome => cases outcome <;> rfl

/-- The steps at the desk that go with a load. -/
def stepsOfLoad (l : Load) : List Step := [.define l.locale (Table.overlay (l.before.base l.locale) l.tree), .clear]

/-- Loading some trees has steps at the desk for each of them that is loaded. -/
theorem Mirrors.loadAll {trees : List (String × Table)} : ∀ {d : Desk} {b : Book}, d.Mirrors b →
    (d.after ((b.loadsOfAll trees).flatMap stepsOfLoad)).Mirrors (b.loadAll trees).1 := by
  induction trees with
  | nil => exact fun h => h
  | cons item trees ih =>
    intro d b h
    obtain ⟨locale, tree⟩ := item
    unfold Book.loadsOfAll Book.loadAll
    cases hload : b.load locale tree with
    | error fault => exact h
    | ok b' =>
      rw [List.flatMap_cons, after_append]
      exact ih (h.load hload)

end Desk

namespace Book

variable {b : Book} {d : Desk}

/-- The step at the desk that goes with asking for the catalog. -/
def consultation (b : Book) : List Desk.Step := (b.representative?.map fun (locale, _) => .consult locale).toList

/-- Whether the catalog is asked for to answer a call: it could be remembered, but is not, and its locale is loaded. -/
def reads (b : Book) (call : Call) : Bool :=
  call.unhashable?.isNone && (b.memo.find? call.same).isNone && b.editions.has call.locale

/-- What answering a call does to the shelf. -/
theorem shelf_answer (b : Book) (call : Call) :
    (b.answer call).1.shelf = if b.reads call then b.catalog.1.shelf else b.shelf := by
  unfold answer reads Ordered.has
  cases call.unhashable? with
  | some typeName => rfl
  | none =>
    cases b.memo.find? call.same with
    | some text => rfl
    | none =>
      cases b.editions.get? call.locale with
      | none => rfl
      | some edition =>
        simp only [Option.isNone_none, Option.isSome_some, Bool.and_true, if_true]
        split <;> rfl

theorem mirrors_catalog (h : d.Mirrors b) : (d.after b.consultation).Mirrors b.catalog.1 := by
  unfold consultation
  cases hr : b.representative? with
  | none =>
    have hcatalog : b.catalog.1 = b := by simp only [catalog, hr]
    rw [hcatalog]
    exact h
  | some found =>
    obtain ⟨locale, tree⟩ := found
    exact (h.catalog hr).1

end Book

/-! ## Sessions -/

namespace Session

variable {s : Session} {d : Desk}

/-- The steps at the desk that go with a step of a session. -/
def deskSteps (s : Session) : Step → List Desk.Step
  | .get key locale values scope =>
    if s.book.reads (s.book.callOf key locale values scope) then s.book.consultation else []
  | .catalog => s.book.consultation
  | step => (s.loadsOf step).flatMap Desk.stepsOfLoad

/-- The steps at the desk that go with a run. -/
def deskRun (s : Session) : List Step → List Desk.Step
  | [] => []
  | step :: steps => s.deskSteps step ++ deskRun (s.run step).1 steps

theorem deskSteps_of_asks {step : Step} (h : step.asks = false) :
    s.deskSteps step = (s.loadsOf step).flatMap Desk.stepsOfLoad := by
  cases step with
  | get _ _ _ _ | catalog => cases h
  | _ => rfl

/-- The desk mirrors the book after a step if it did before. -/
theorem mirrors_run (hs : s.book.Sound) (h : d.Mirrors s.book) (step : Step) :
    (d.after (s.deskSteps step)).Mirrors (s.run step).1.book := by
  rcases s.run_cases step with ⟨hasks, trees, hloads, hbook, -⟩ | ⟨key, locale, values, scope, rfl⟩ | rfl |
    ⟨locale, rfl⟩
  · rw [deskSteps_of_asks hasks, hloads, hbook]
    exact h.loadAll
  · show (d.after (if _ then _ else _)).Mirrors (s.book.answer _).1
    have heditions := Book.editions_answer hs (s.book.callOf key locale values scope)
    have hshelf := s.book.shelf_answer (s.book.callOf key locale values scope)
    split
    · next hreads =>
      rw [if_pos hreads] at hshelf
      exact (Book.mirrors_catalog h).congr (heditions.trans (Book.editions_catalog _).symm) hshelf
    · next hreads =>
      rw [if_neg hreads] at hshelf
      exact h.congr heditions hshelf
  · exact Book.mirrors_catalog h
  · exact h.congr rfl rfl

/-- And so it does after a run. -/
theorem mirrors_after {steps : List Step} : ∀ {s : Session} {d : Desk}, s.Reachable → d.Mirrors s.book →
    (d.after (s.deskRun steps)).Mirrors (s.after steps).book := by
  induction steps with
  | nil => exact fun _ h => h
  | cons step steps ih =>
    intro s d hs h
    rw [deskRun, Desk.after_append]
    exact ih (s := (s.run step).1) (hs.after [step]) (mirrors_run hs.sound h step)

/-- An empty desk mirrors an empty book. -/
theorem mirrors_start {folder : Folder} {defaultLocale : String} {options : Options} {capacity : Int}
    {repository : Plural.Repository} {empty : Session}
    (h : start folder defaultLocale options capacity .nothing repository = .ok empty) :
    ∃ desk, Desk.ofCapacity options Book.shelfCapacity = .ok desk ∧ desk.Mirrors empty.book := by
  obtain ⟨b, hb, h⟩ := bind_eq_ok_iff.1 h
  cases h
  obtain ⟨_, rfl⟩ := Book.ofCapacity_eq_ok hb
  exact ⟨_, rfl, fun _ _ he => (by cases he), fun _ _ hn => (by cases hn), fun _ _ _ hn => (by cases hn),
    rfl, rfl, rfl, .nil⟩

/-- **The catalog of a book is never stale.** In every session, what is read is the catalog that is made afresh of the
present tree of the default locale, or else of the locale that was loaded first, or the fault that keeps the tree from
having one (`Current`). It is the very same catalog when it is read again, if nothing has been loaded and the default
locale is the same, and a new one if something has been loaded. And it is the one that is given at a desk, where
catalogs are kept by the identity of trees, for the document of the representative tree. -/
theorem catalog_never_stale {folder : Folder} {defaultLocale : String} {options : Options} {capacity : Int}
    {opening : Opening} {repository : Plural.Repository} {first : Session}
    (h : start folder defaultLocale options capacity opening repository = .ok first) (steps : List Step) :
    ∃ empty desk, start folder defaultLocale options capacity .nothing repository = .ok empty ∧
      first = empty.after (opening.steps defaultLocale) ∧ Desk.ofCapacity options Book.shelfCapacity = .ok desk ∧
      let all := opening.steps defaultLocale ++ steps
      let s := first.after steps
      let d := desk.after (empty.deskRun all)
      (s.run .catalog).2.outcome = s.book.reading.map .issue ∧ s.Current options (empty.loads all) ∧
        (∀ issue later, s.book.reading = .ok issue → (s.run .catalog).1.loads later = [] →
          (∀ other, .setDefault other ∈ later → other = s.book.defaultLocale) →
            ((s.run .catalog).1.after later).book.reading = .ok issue) ∧
        (∀ issue later issue', s.book.reading = .ok issue → (s.run .catalog).1.loads later ≠ [] →
          ((s.run .catalog).1.after later).book.reading = .ok issue' → issue.number < issue'.number) ∧
        d.Mirrors s.book ∧ ∀ locale tree, s.book.representative? = some (locale, tree) →
          ∃ held, (d.run (.consult locale)).2.outcome = s.book.reading.map fun issue => .issue issue held := by
  obtain ⟨empty, hempty, rfl⟩ := start_eq_ok h
  obtain ⟨desk, hdesk, hmirrors⟩ := mirrors_start hempty
  obtain ⟨hr, -⟩ := start_nothing_eq_ok hempty
  refine ⟨empty, desk, hempty, rfl, hdesk, ?_⟩
  intro all s d
  have hall : s = empty.after all := (after_append _ _ _).symm
  have hs : s.Reachable := hall ▸ hr.after all
  have hd : d.Mirrors s.book := hall ▸ mirrors_after hr hmirrors
  exact ⟨rfl, hall ▸ current_after hempty all, fun _ _ => reading_again hs, fun _ _ _ => reading_anew hs, hd,
    fun _ _ hrep => (hd.catalog hrep).2⟩

/-- Without the default locale, the catalog is that of the locale that came first. A call for it and a load that fails
leave the very same catalog, and a load that does not makes a new one. -/
theorem catalog_never_stale_first_locale :
    let first := blank "en" {} 4 (by decide)
    let steps : List Step := [.loadTree "fr" [(.text "a", .text "Salut")], .loadTree "de" [(.text "b", .text "Hallo")]]
    let s := first.after steps
    let idle : List Step := [.get "a" (some "fr") [] none, .loadTree "fr" [(.text "c.d", .text "x")]]
    let loading : List Step := [.loadTree "de" [(.text "c", .text "Tag")]]
    start {} "en" {} (4 : Nat) .nothing = .ok first ∧ s.Current {} (first.loads steps) ∧
      ∃ issue issue', s.book.reading = .ok issue ∧ issue.catalog.keys = ["a"] ∧
        ((s.run .catalog).1.after idle).book.reading = .ok issue ∧
        ((s.run .catalog).1.after loading).book.reading = .ok issue' ∧ issue.number < issue'.number := by
  intro first steps s idle loading
  have hstart := start_blank "en" {} 4 (by decide)
  obtain ⟨empty, desk, hempty, -, -, -, hcurrent, hagain, hanew, -⟩ := catalog_never_stale hstart steps
  obtain rfl := Except.ok.inj (hstart.symm.trans hempty)
  have hkeys : s.book.reading.toOption.map (fun issue => issue.catalog.keys) = some ["a"] := by decide +kernel
  obtain ⟨issue, hissue, hkeys⟩ := Option.map_eq_some_iff.1 hkeys
  rw [toOption_eq_some_iff] at hissue
  have hnew : ((s.run .catalog).1.after loading).book.reading.toOption.isSome = true := by decide +kernel
  obtain ⟨issue', hissue'⟩ := Option.isSome_iff_exists.1 hnew
  rw [toOption_eq_some_iff] at hissue'
  have hidle : ((s.run .catalog).1.loads idle).length = 0 := by decide +kernel
  have hloading : ((s.run .catalog).1.loads loading).length = 1 := by decide +kernel
  refine ⟨hstart, hcurrent, issue, issue', hissue, hkeys, ?_, hissue', ?_⟩
  · exact hagain issue idle hissue (List.length_eq_zero_iff.1 hidle) (by simp [idle])
  · refine hanew issue loading issue' hissue (fun hnil => ?_) hissue'
    rw [hnil] at hloading
    cases hloading

/-- **A load that fails may leave another catalog behind**: the phrase trees before the one that is refused are there. -/
theorem failing_load_makes_a_new_catalog :
    let s := (blank "en" {} 4 (by decide)).after [.loadTree "en" [(.text "a", .text "Hi")],
      .write (.ofText "fr.yaml") (.file "a: Salut".toUTF8), .write (.ofText "de.yaml") (.file "b.c: Hallo".toUTF8)]
    let loading : Step := .loadFiles [.ofText "fr.yaml" "fr", .ofText "de.yaml" "de"]
    s.Reachable ∧ ((s.run .catalog).1.run loading).2.outcome.toOption.isNone = true ∧
      ∃ issue issue', s.book.reading = .ok issue ∧ ((s.run .catalog).1.after [loading]).book.reading = .ok issue' ∧
        issue.number ≠ issue'.number := by
  intro s loading
  have hs : s.Reachable := ⟨_, _, initial_blank "en" {} 4 (by decide), rfl⟩
  have hnumber : s.book.reading.toOption.map Issue.number = some 0 := by decide +kernel
  have hnumber' : ((s.run .catalog).1.after [loading]).book.reading.toOption.map Issue.number = some 1 := by
    decide +kernel
  obtain ⟨issue, hissue, hzero⟩ := Option.map_eq_some_iff.1 hnumber
  obtain ⟨issue', hissue', hone⟩ := Option.map_eq_some_iff.1 hnumber'
  refine ⟨hs, by decide +kernel, issue, issue', toOption_eq_some_iff.1 hissue, toOption_eq_some_iff.1 hissue', ?_⟩
  rw [hzero, hone]
  decide

end Session

end Phrasebook
