import Phrasebook.Proofs.Book.Reachable
import Phrasebook.Proofs.Document.Proper
import Phrasebook.Proofs.Tree.Overlay

/-!
# The loads behind a phrase book

* `Book.History loads b`: the book `b` has come of an empty one by the given loads, with calls, catalogs and changes of
  the default locale between them.
* `History.tree_of_locale`: the tree of a locale is what its first load found below it, with the trees of all its loads
  laid over that one after the other.
* `Edition.get?_texts`: the text at a path is the leaf that is found along its keys.
* `History.earlier`: the book before a load has a history of its own.
* `Session.history_after`: the book of every session has come of the loads of its steps (`Session.loads`).
-/

namespace Phrasebook

/-- The text at a path is the leaf of the tree that is found along the keys of the path. -/
theorem Edition.get?_texts {limit : Int} {e : Edition} (hs : e.Sound limit) (hp : Table.isProper e.tree = true)
    (path : String) : e.texts.get? path = e.tree.leafAt? (Path.segments path) := by
  obtain ⟨entries, hl, ht⟩ := hs
  have hkeys : (Ordered.keys e.texts).Nodup := by
    have hpaths := Table.nodup_paths_leaves hp hl
    rw [ht, Ordered.keys, List.map_map]
    exact hpaths
  have hmem : ∀ value, (path, value) ∈ e.texts ↔ (⟨path, value⟩ : Entry) ∈ entries := by
    intro value
    rw [ht, List.mem_map]
    constructor
    · rintro ⟨entry, he, heq⟩
      cases heq
      exact he
    · intro he
      exact ⟨_, he, rfl⟩
  refine Option.ext fun value => ?_
  rw [← Table.mem_leaves_iff hp hl, ← hmem]
  exact ⟨Ordered.mem_of_get?, Ordered.get?_of_mem hkeys⟩

/-- A load that has been carried out: the book before it, the locale and the tree. -/
structure Load where
  before : Book
  locale : String
  tree : Table

namespace Book

/-- A book and the loads that have made it, the oldest first. -/
inductive History : List Load → Book → Prop
  | empty {defaultLocale : String} {options : Options} {capacity : Int} {repository : Plural.Repository} {b : Book} :
      Book.ofCapacity defaultLocale options capacity repository = .ok b → History [] b
  | load {loads : List Load} {b b' : Book} {locale : String} {tree : Table} : History loads b →
      Table.isProper tree = true → b.load locale tree = .ok b' → History (loads ++ [⟨b, locale, tree⟩]) b'
  | answer {loads : List Load} {b : Book} (call : Call) : History loads b → History loads (b.answer call).1
  | catalog {loads : List Load} {b : Book} : History loads b → History loads b.catalog.1
  | withDefault {loads : List Load} {b : Book} (locale : String) : History loads b →
      History loads (b.withDefault locale)

variable {b : Book} {loads : List Load}

/-- A book with a history is sound. -/
theorem History.sound (h : History loads b) : b.Sound := by
  induction h with
  | empty h => exact sound_of_ofCapacity h
  | load _ _ h ih => exact ih.load h
  | answer call _ ih => exact ih.answer call
  | catalog _ ih => exact ih.catalog
  | withDefault locale _ ih => exact ih.withDefault locale

/-- The tree of a locale is a phrase tree. -/
theorem Sound.fits (hs : b.Sound) {locale : String} {edition : Edition}
    (he : b.editions.get? locale = some edition) : Table.fits b.shelf.options.maxDepth edition.tree = true := by
  obtain ⟨entries, hl, -⟩ := hs.edition locale edition he
  exact (Table.leaves_eq_ok_iff.1 hl).1.2

/-- The tree below a new one is that of the locale, or else that of the default locale, or else empty. -/
theorem base_eq (b : Book) (locale : String) :
    (∃ edition, b.editions.get? locale = some edition ∧ b.base locale = edition.tree) ∨
      b.editions.get? locale = none ∧
        ((∃ edition, b.editions.get? b.defaultLocale = some edition ∧ b.base locale = edition.tree) ∨
          b.editions.get? b.defaultLocale = none ∧ b.base locale = []) := by
  unfold base
  cases hl : b.editions.get? locale with
  | some edition => exact Or.inl ⟨edition, rfl, rfl⟩
  | none =>
    right
    cases hd : b.editions.get? b.defaultLocale with
    | some edition => exact ⟨rfl, Or.inl ⟨edition, rfl, rfl⟩⟩
    | none => exact ⟨rfl, Or.inr ⟨rfl, rfl⟩⟩

/-- What holds of the empty tree and of the trees of all locales holds of the tree below a new one. -/
theorem base_induct {P : Table → Prop} (nil : P [])
    (edition : ∀ locale edition, b.editions.get? locale = some edition → P edition.tree) (locale : String) :
    P (b.base locale) := by
  rcases b.base_eq locale with ⟨e, he, h⟩ | ⟨-, ⟨e, he, h⟩ | ⟨-, h⟩⟩
  · rw [h]
    exact edition _ e he
  · rw [h]
    exact edition _ e he
  · rw [h]
    exact nil

/-- What a new tree is laid over is a phrase tree. -/
theorem Sound.fits_base (hs : b.Sound) (locale : String) :
    Table.fits b.shelf.options.maxDepth (b.base locale) = true :=
  base_induct (P := fun t => Table.fits b.shelf.options.maxDepth t = true) rfl (fun _ _ he => hs.fits he) locale

/-- No key comes twice in the tree of a locale. -/
theorem History.isProper (h : History loads b) : ∀ {locale : String} {edition : Edition},
    b.editions.get? locale = some edition → Table.isProper edition.tree = true := by
  induction h with
  | empty h =>
    intro locale edition he
    obtain ⟨_, rfl⟩ := ofCapacity_eq_ok h
    cases he
  | @load loads b b' locale tree hb ht h ih =>
    intro locale' edition' he
    have hs := hb.sound
    obtain ⟨edition, hsound, htree, rfl⟩ := load_eq_ok h
    rw [Ordered.get?_put] at he
    split at he
    · cases he
      obtain ⟨entries, hl, -⟩ := hsound
      have hfits := (Table.leaves_eq_ok_iff.1 hl).1.2
      have hbase := hs.fits_base locale
      have hproper : Table.isProper (b.base locale) = true :=
        base_induct (P := fun t => Table.isProper t = true) rfl (fun _ _ he => ih he) locale
      rw [htree] at hfits ⊢
      exact Table.isProper_overlay tree hbase hproper (Table.fits_of_overlay tree ht hbase hfits) ht
    · exact ih he
  | answer call hb ih =>
    intro locale edition he
    rw [editions_answer hb.sound] at he
    exact ih he
  | catalog _ ih =>
    intro locale edition he
    rw [editions_catalog] at he
    exact ih he
  | withDefault _ _ ih => exact ih

/-- A loaded tree is one in which no key comes twice, and the book before a load has come of the loads before it. -/
theorem History.earlier (h : History loads b) : ∀ {earlier later : List Load} {l : Load},
    loads = earlier ++ l :: later → History earlier l.before ∧ Table.isProper l.tree = true := by
  induction h with
  | empty h => intro earlier later l hl; simp at hl
  | @load loads b b' locale tree hb ht h ih =>
    intro earlier later l hl
    cases later using List.reverseRecOn with
    | nil =>
      obtain ⟨rfl, hlast⟩ := List.append_inj' hl rfl
      cases hlast
      exact ⟨hb, ht⟩
    | append_singleton later last =>
      rw [← List.cons_append, ← List.append_assoc] at hl
      exact ih (List.append_inj' hl rfl).1
  | answer call _ ih => exact ih
  | catalog _ ih => exact ih
  | withDefault _ _ ih => exact ih

/-- No key comes twice in a tree that was loaded. -/
theorem History.isProper_of_mem (h : History loads b) {l : Load} (hl : l ∈ loads) : Table.isProper l.tree = true := by
  obtain ⟨earlier, later, hloads⟩ := List.append_of_mem hl
  exact (h.earlier hloads).2

/-! ## The tree of a locale -/

/-- A tree with the trees of some loads laid over it one after the other. -/
def laidOver (base : Table) (loads : List Load) : Table := loads.foldl (fun tree l => Table.overlay tree l.tree) base

/-- The loads of a locale. -/
def loadsOf (locale : String) (loads : List Load) : List Load := loads.filter fun l => l.locale = locale

theorem loadsOf_append (locale : String) (loads loads' : List Load) :
    loadsOf locale (loads ++ loads') = loadsOf locale loads ++ loadsOf locale loads' := List.filter_append ..

theorem laidOver_append (base : Table) (loads loads' : List Load) :
    laidOver base (loads ++ loads') = laidOver (laidOver base loads) loads' := List.foldl_append ..

/-- What the loads of a locale have made of it: nothing if there are none, and else a tree that is laid over the one
that the first of them found below it. -/
theorem History.tree_of_locale (h : History loads b) (locale : String) :
    match loadsOf locale loads with
    | [] => b.editions.get? locale = none
    | first :: later => first.before.editions.get? locale = none ∧ ∃ edition, b.editions.get? locale = some edition ∧
        edition.tree = laidOver (first.before.base locale) (first :: later) := by
  induction h with
  | empty h =>
    obtain ⟨_, rfl⟩ := ofCapacity_eq_ok h
    rfl
  | @load loads b b' locale' tree hb ht h ih =>
    obtain ⟨edition, -, htree, rfl⟩ := load_eq_ok h
    rw [loadsOf_append]
    by_cases hl : locale' = locale
    · subst hl
      have hself : loadsOf locale' [⟨b, locale', tree⟩] = [⟨b, locale', tree⟩] := by simp [loadsOf]
      rw [hself]
      cases hloads : loadsOf locale' loads with
      | nil =>
        rw [hloads] at ih
        exact ⟨ih, edition, by rw [Ordered.get?_put, if_pos rfl], htree⟩
      | cons first later =>
        rw [hloads] at ih
        obtain ⟨hnew, before, hbefore, hover⟩ := ih
        refine ⟨hnew, edition, by rw [Ordered.get?_put, if_pos rfl], ?_⟩
        have hbase : b.base locale' = before.tree := by
          unfold base
          rw [hbefore]
        show edition.tree = laidOver (first.before.base locale') ((first :: later) ++ [⟨b, locale', tree⟩])
        rw [laidOver_append, ← hover, htree, hbase]
        rfl
    · have hother : loadsOf locale [⟨b, locale', tree⟩] = [] := by simp [loadsOf, hl]
      rw [hother, List.append_nil, Ordered.get?_put, if_neg hl]
      exact ih
  | answer call hb ih =>
    rw [editions_answer hb.sound]
    exact ih
  | catalog _ ih =>
    rw [editions_catalog]
    exact ih
  | withDefault _ _ ih => exact ih

/-- Loads that do not touch some keys leave the leaf that is found along them. -/
theorem leafAt?_laidOver {keys : List String} : ∀ {loads : List Load} {base : Table},
    (∀ l ∈ loads, Table.isProper l.tree = true ∧ l.tree.touches keys = false) →
      (laidOver base loads).leafAt? keys = base.leafAt? keys := by
  intro loads
  induction loads with
  | nil => intro base _; rfl
  | cons l loads ih =>
    intro base h
    obtain ⟨⟨hp, ht⟩, h⟩ := List.forall_mem_cons.1 h
    have hone : laidOver base (l :: loads) = laidOver (Table.overlay base l.tree) loads := rfl
    rw [hone, ih h, Table.leafAt?_overlay hp, ht]
    rfl

/-! ## The loads of a session -/

/-- The loads of some trees up to the first that cannot be loaded. -/
def loadsOfAll (b : Book) : List (String × Table) → List Load
  | [] => []
  | (locale, tree) :: trees =>
    match b.load locale tree with
    | .ok b' => ⟨b, locale, tree⟩ :: loadsOfAll b' trees
    | .error _ => []

/-- Loading some trees adds their loads to the history. -/
theorem History.loadAll {trees : List (String × Table)} : ∀ {loads : List Load} {b : Book}, History loads b →
    (∀ item ∈ trees, Table.isProper item.2 = true) → History (loads ++ b.loadsOfAll trees) (b.loadAll trees).1 := by
  induction trees with
  | nil =>
    intro loads b hb _
    rw [loadsOfAll, List.append_nil]
    exact hb
  | cons item trees ih =>
    intro loads b hb htrees
    obtain ⟨locale, tree⟩ := item
    obtain ⟨ht, htrees⟩ := List.forall_mem_cons.1 htrees
    rw [loadsOfAll, Book.loadAll]
    cases h : b.load locale tree with
    | ok b' =>
      have hrest := ih (hb.load ht h) htrees
      rw [List.append_assoc] at hrest
      exact hrest
    | error fault =>
      rw [List.append_nil]
      exact hb

/-- The state of a session after a load is the book with the tree loaded. -/
theorem book_settle_load (s : Session) (locale : String) (tree : Table) :
    (s.settle (s.book.load locale tree)).1.book = (s.book.loadAll [(locale, tree)]).1 := by
  rw [Book.loadAll]
  cases s.book.load locale tree <;> rfl

end Book

namespace Session

/-- The loads that a step carries out. -/
def loadsOf (s : Session) : Step → List Load
  | .loadTree locale tree => s.book.loadsOfAll [(locale, tree)]
  | .loadFile source =>
    match s.folder.readTable source.path source.given with
    | .ok tree => s.book.loadsOfAll [(source.locale, tree)]
    | .error _ => []
  | .loadFiles sources =>
    match s.folder.readAll none sources with
    | .ok trees => s.book.loadsOfAll trees
    | .error _ => []
  | _ => []

/-- The loads that some steps carry out. -/
def loads (s : Session) : List Step → List Load
  | [] => []
  | step :: steps => s.loadsOf step ++ loads (s.run step).1 steps

/-- Whether a tree that a step loads, other than from a file, is one in which no key comes twice. -/
def Step.isProper : Step → Bool
  | .loadTree _ tree => Table.isProper tree
  | _ => true

/-- The step that loads what a session begins with, if anything. -/
def Opening.steps (defaultLocale : String) : Opening → List Step
  | .nothing => []
  | .tree items => [.loadTree defaultLocale items]
  | .file path => [.loadFile ⟨path, path.toText, defaultLocale⟩]

variable {earlier : List Load} {s : Session}

/-- Whether a step asks for a text or for the catalog. -/
def Step.asks : Step → Bool
  | .get _ _ _ _ | .catalog => true
  | .loadTree _ _ | .loadFile _ | .loadFiles _ | .write _ _ | .setDefault _ | .defaultLocale | .locales => false

/-- **All that a step can do to the book**: it loads some trees, it asks for a text or the catalog, or it changes the
default locale. -/
theorem run_cases (s : Session) (step : Step) :
    (step.asks = false ∧ ∃ trees, s.loadsOf step = s.book.loadsOfAll trees ∧
        (s.run step).1.book = (s.book.loadAll trees).1 ∧
        (step.isProper = true → ∀ item ∈ trees, Table.isProper item.2 = true)) ∨
      (∃ key locale values scope, step = .get key locale values scope) ∨ step = .catalog ∨
      ∃ locale, step = .setDefault locale := by
  have idle : ∀ {item : String × Table}, item ∈ [] → Table.isProper item.2 = true := fun h => (by cases h)
  cases step with
  | get key locale values scope => exact Or.inr (Or.inl ⟨key, locale, values, scope, rfl⟩)
  | loadTree locale tree =>
    exact Or.inl ⟨rfl, [(locale, tree)], rfl, Book.book_settle_load s locale tree, fun hp =>
      List.forall_mem_singleton.2 hp⟩
  | loadFile source =>
    left
    rw [run, Book.loadFile, loadsOf]
    cases h : s.folder.readTable source.path source.given with
    | ok tree =>
      rw [ok_bind, Book.book_settle_load]
      exact ⟨rfl, _, rfl, rfl, fun _ => List.forall_mem_singleton.2 (Folder.isProper_of_readTable h)⟩
    | error fault => exact ⟨rfl, [], rfl, rfl, fun _ _ => idle⟩
  | loadFiles sources =>
    left
    show _ ∧ ∃ trees, _ ∧ (s.book.loadFiles s.folder none sources).1 = _ ∧ _
    rw [Book.loadFiles, loadsOf]
    cases h : s.folder.readAll none sources with
    | ok trees => exact ⟨rfl, trees, rfl, rfl, fun _ => Folder.isProper_of_readAll h⟩
    | error fault => exact ⟨rfl, [], rfl, rfl, fun _ _ => idle⟩
  | write path node => exact Or.inl ⟨rfl, [], rfl, rfl, fun _ _ => idle⟩
  | setDefault locale => exact Or.inr (Or.inr (Or.inr ⟨locale, rfl⟩))
  | defaultLocale => exact Or.inl ⟨rfl, [], rfl, rfl, fun _ _ => idle⟩
  | locales => exact Or.inl ⟨rfl, [], rfl, rfl, fun _ _ => idle⟩
  | catalog => exact Or.inr (Or.inr (Or.inl rfl))

/-- A step adds its loads to the history of the book. -/
theorem history_run (hs : Book.History earlier s.book) {step : Step} (hp : step.isProper = true) :
    Book.History (earlier ++ s.loadsOf step) (s.run step).1.book := by
  have idle : ∀ b, Book.History earlier b → Book.History (earlier ++ []) b := by
    intro b hb
    rw [List.append_nil]
    exact hb
  rcases s.run_cases step with ⟨-, trees, hloads, hbook, htrees⟩ | ⟨key, locale, values, scope, rfl⟩ | rfl |
    ⟨locale, rfl⟩
  · rw [hloads, hbook]
    exact hs.loadAll (htrees hp)
  · exact idle _ (hs.answer _)
  · exact idle _ hs.catalog
  · exact idle _ (hs.withDefault locale)

/-- Some steps add their loads to the history of the book. -/
theorem history_steps {steps : List Step} : ∀ {earlier : List Load} {s : Session}, Book.History earlier s.book →
    (∀ step ∈ steps, step.isProper = true) → Book.History (earlier ++ s.loads steps) (s.after steps).book := by
  induction steps with
  | nil =>
    intro earlier s hs _
    rw [loads, List.append_nil]
    exact hs
  | cons step steps ih =>
    intro earlier s hs hp
    obtain ⟨hstep, hsteps⟩ := List.forall_mem_cons.1 hp
    rw [loads, ← List.append_assoc]
    exact ih (history_run hs hstep) hsteps

/-- Beginning a session with something is beginning it with nothing and loading that. -/
theorem start_eq_ok {folder : Folder} {defaultLocale : String} {options : Options} {capacity : Int} {opening : Opening}
    {repository : Plural.Repository} {first : Session}
    (h : start folder defaultLocale options capacity opening repository = .ok first) :
    ∃ empty, start folder defaultLocale options capacity .nothing repository = .ok empty ∧
      first = empty.after (opening.steps defaultLocale) := by
  obtain ⟨b, hb, h⟩ := bind_eq_ok_iff.1 h
  refine ⟨⟨b, folder⟩, bind_eq_ok_iff.2 ⟨b, hb, rfl⟩, ?_⟩
  cases opening with
  | nothing =>
    cases h
    rfl
  | tree items =>
    obtain ⟨b', hl, h⟩ := bind_eq_ok_iff.1 h
    cases h
    simp [Opening.steps, after, run, hl, settle]
  | file path =>
    obtain ⟨b', hl, h⟩ := bind_eq_ok_iff.1 h
    cases h
    simp [Opening.steps, after, run, hl, settle]

/-- A session has the repository that it has begun with. -/
theorem repository_of_start {folder : Folder} {defaultLocale : String} {options : Options} {capacity : Int}
    {opening : Opening} {repository : Plural.Repository} {first : Session}
    (h : start folder defaultLocale options capacity opening repository = .ok first) (steps : List Step) :
    (first.after steps).book.repository = repository := by
  have hfirst : first.Initial := ⟨folder, defaultLocale, options, capacity, opening, repository, h⟩
  rw [hfirst.reachable.repository_after]
  obtain ⟨empty, hempty, rfl⟩ := start_eq_ok h
  have hinitial : empty.Initial := ⟨folder, defaultLocale, options, capacity, .nothing, repository, hempty⟩
  rw [hinitial.reachable.repository_after]
  obtain ⟨b, hb, hs⟩ := bind_eq_ok_iff.1 hempty
  cases hs
  obtain ⟨_, rfl⟩ := Book.ofCapacity_eq_ok hb
  rfl

/-- **Every session has a history**: its book has come of an empty one by the loads of its steps. -/
theorem history_after {folder : Folder} {defaultLocale : String} {options : Options} {capacity : Int}
    {repository : Plural.Repository} {empty : Session}
    (h : start folder defaultLocale options capacity .nothing repository = .ok empty) {steps : List Step}
    (hs : ∀ step ∈ steps, step.isProper = true) : Book.History (empty.loads steps) (empty.after steps).book := by
  obtain ⟨b, hb, h⟩ := bind_eq_ok_iff.1 h
  cases h
  exact history_steps (s := ⟨b, folder⟩) (.empty hb) hs

end Session

end Phrasebook
