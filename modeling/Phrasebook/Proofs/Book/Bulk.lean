import Phrasebook.Proofs.Book.Stores

/-!
# Loading files in bulk

Loading some files in bulk is loading, one after the other, the last file of each locale (`lastOfEach`) in the place of
its first one.

* `Book.exists_loadTrees_iff`: some trees can be loaded exactly if all of them are phrase trees, in whatever order.
* `Book.AgreeOn` compares books on some locales. `AgreeOn.load` and `AgreeOn.load_left` say what a load keeps of it, and
  `AgreeOn.loadTrees` what a run of loads does.
* `Session.Reachable.loadFiles_agrees`: what bulk loading has in common with loading the files one by one;
  `Session.loadFiles_loses_a_key`: it does not have the keys of an earlier file for the same locale.
-/

namespace Phrasebook

/-! ## The last file of each locale -/

/-- The last of the sources of each locale. -/
def byLocale (sources : List Source) : Ordered String Source :=
  sources.foldl (fun last source => last.put source.locale source) []

/-- The last source of each locale, in the place of the first. -/
def lastOfEach (sources : List Source) : List Source := (byLocale sources).map (·.2)

theorem byLocale_concat (sources : List Source) (source : Source) :
    byLocale (sources ++ [source]) = (byLocale sources).put source.locale source := List.foldl_append ..

/-- The last source of a locale is one of the sources, and it is for that locale. -/
theorem mem_of_mem_byLocale {sources : List Source} : ∀ {item : String × Source}, item ∈ byLocale sources →
    item.2 ∈ sources ∧ item.2.locale = item.1 := by
  induction sources using List.reverseRecOn with
  | nil =>
    intro item hitem
    cases hitem
  | append_singleton sources source ih =>
    intro item hitem
    rw [byLocale_concat] at hitem
    rcases Ordered.mem_put hitem with rfl | hitem
    · exact ⟨List.mem_append_right _ (List.mem_singleton_self _), rfl⟩
    · exact ⟨List.mem_append_left _ (ih hitem).1, (ih hitem).2⟩

/-- The locales of the sources are the keys of the map by locale. -/
theorem mem_keys_byLocale {sources : List Source} {locale : String} :
    locale ∈ (byLocale sources).keys ↔ locale ∈ sources.map Source.locale := by
  induction sources using List.reverseRecOn with
  | nil => rfl
  | append_singleton sources source ih =>
    rw [byLocale_concat, Ordered.mem_keys_put, ih, List.map_append, List.mem_append, List.map_singleton,
      List.mem_singleton]

theorem lastOfEach_subset (sources : List Source) : lastOfEach sources ⊆ sources := by
  intro source hsource
  obtain ⟨item, hitem, rfl⟩ := List.mem_map.1 hsource
  exact (mem_of_mem_byLocale hitem).1

/-- If no locale is listed twice, each source is the last one of its locale. -/
theorem lastOfEach_eq_self {sources : List Source} (hn : (sources.map Source.locale).Nodup) :
    lastOfEach sources = sources := by
  have hitems : byLocale sources = sources.map fun source => (source.locale, source) :=
    Ordered.foldl_put_of_nodup hn
  rw [lastOfEach, hitems, List.map_map]
  exact List.map_id _

/-! ## Reading the files -/

/-- The tree in the file of a source; empty if there is none. -/
def Folder.treeOf (f : Folder) (source : Source) : Table := (f.readTable source.path source.given).toOption.getD []

/-- The file of a source can be read. -/
def Folder.Reads (f : Folder) (source : Source) : Prop :=
  f.readTable source.path source.given = .ok (f.treeOf source)

/-- The trees that some sources bring, each for its locale. -/
def Folder.treesOf (f : Folder) (sources : List Source) : List (String × Table) :=
  sources.map fun source => (source.locale, f.treeOf source)

namespace Folder

variable {f : Folder} {sources : List Source}

theorem reads_of_eq_ok {source : Source} {tree : Table} (h : f.readTable source.path source.given = .ok tree) :
    f.Reads source := by
  rw [Reads, treeOf, h]
  rfl

theorem Reads.isProper {source : Source} (h : f.Reads source) : Table.isProper (f.treeOf source) = true :=
  isProper_of_readTable h

/-- The trees of the last sources are the last trees. -/
theorem treesOf_lastOfEach (f : Folder) (sources : List Source) :
    f.treesOf (lastOfEach sources) = (byLocale sources).mapValues f.treeOf := by
  rw [treesOf, lastOfEach, List.map_map]
  refine List.map_congr_left fun item hitem => ?_
  rw [Function.comp_apply, (mem_of_mem_byLocale hitem).2]

/-- Reading some files in bulk gives the trees of the last file of each locale. -/
theorem readAll_eq_ok {workers : Option Int} (hw : workers.any (· ≤ 0) = false)
    (hr : ∀ source ∈ sources, f.Reads source) :
    f.readAll workers sources = .ok (f.treesOf (lastOfEach sources)) := by
  have hfold : sources.foldlM (fun (tables : Ordered String Table) source => do
      return tables.put source.locale (← f.readTable source.path source.given)) [] =
        .ok ((byLocale sources).mapValues f.treeOf) := by
    induction sources using List.reverseRecOn with
    | nil => rfl
    | append_singleton sources source ih =>
      have hread : f.readTable source.path source.given = .ok (f.treeOf source) :=
        hr source (List.mem_append_right _ (List.mem_singleton_self _))
      rw [List.foldlM_append, ih fun source hs => hr source (List.mem_append_left _ hs), ok_bind, List.foldlM_cons,
        hread, byLocale_concat, Ordered.mapValues_put]
      rfl
  rw [readAll, hw, treesOf_lastOfEach, ← hfold]
  rfl

end Folder

/-! ## Loading one by one -/

namespace Book

variable {b b' c c' : Book}

/-- Loads the trees in some files one after the other. -/
def loadEach (b : Book) (folder : Folder) (sources : List Source) : Except Fault Book :=
  sources.foldlM (fun b source => b.loadFile folder source) b

/-- Loads some trees one after the other. -/
def loadTrees (b : Book) (trees : List (String × Table)) : Except Fault Book :=
  trees.foldlM (fun b item => b.load item.1 item.2) b

theorem loadTrees_cons (b : Book) (locale : String) (tree : Table) (trees : List (String × Table)) :
    b.loadTrees ((locale, tree) :: trees) = b.load locale tree >>= fun b' => b'.loadTrees trees := List.foldlM_cons

theorem loadTrees_append (b : Book) (trees trees' : List (String × Table)) :
    b.loadTrees (trees ++ trees') = b.loadTrees trees >>= fun b' => b'.loadTrees trees' := List.foldlM_append

theorem loadTrees_concat (b : Book) (trees : List (String × Table)) (locale : String) (tree : Table) :
    b.loadTrees (trees ++ [(locale, tree)]) = b.loadTrees trees >>= fun b' => b'.load locale tree := by
  have hlast : ∀ c : Book, c.loadTrees [(locale, tree)] = c.load locale tree := by
    intro c
    rw [loadTrees_cons]
    cases c.load locale tree <;> rfl
  rw [loadTrees_append]
  exact congrArg _ (funext hlast)

/-- **What holds before some loads and is kept by each of them holds after them.** It may mention the trees that were
loaded so far. -/
theorem loadTrees_induct {motive : List (String × Table) → Book → Prop} (start : motive [] b)
    (step : ∀ {before : List (String × Table)} {c c' : Book} {locale : String} {tree : Table}, motive before c →
      c.load locale tree = .ok c' → motive (before ++ [(locale, tree)]) c')
    {trees : List (String × Table)} (h : b.loadTrees trees = .ok b') : motive trees b' := by
  induction trees using List.reverseRecOn generalizing b' with
  | nil =>
    cases h
    exact start
  | append_singleton trees item ih =>
    obtain ⟨locale, tree⟩ := item
    rw [loadTrees_concat] at h
    obtain ⟨c, hc, hload⟩ := bind_eq_ok_iff.1 h
    exact step (ih hc) hload

/-- Where all trees can be loaded, loading up to the first that cannot loads them all. -/
theorem loadAll_eq_of_loadTrees {trees : List (String × Table)} : ∀ {b : Book}, b.loadTrees trees = .ok b' →
    b.loadAll trees = (b', .ok ()) := by
  induction trees with
  | nil =>
    intro b h
    cases h
    rfl
  | cons item trees ih =>
    intro b h
    obtain ⟨locale, tree⟩ := item
    rw [loadTrees_cons] at h
    obtain ⟨c, hc, h⟩ := bind_eq_ok_iff.1 h
    rw [loadAll, hc]
    exact ih h

/-- Files that are loaded one by one can be read. -/
theorem reads_of_loadEach {folder : Folder} {sources : List Source} : ∀ {b : Book},
    b.loadEach folder sources = .ok b' → ∀ source ∈ sources, folder.Reads source := by
  induction sources with
  | nil => exact fun _ source hs => (by cases hs)
  | cons source sources ih =>
    intro b h
    obtain ⟨c, hc, h⟩ := bind_eq_ok_iff.1 (List.foldlM_cons.symm.trans h)
    obtain ⟨tree, hread, -⟩ := bind_eq_ok_iff.1 hc
    exact List.forall_mem_cons.2 ⟨Folder.reads_of_eq_ok hread, ih h⟩

/-- Loading a file that can be read is loading its tree. -/
theorem loadFile_eq_load (b : Book) {folder : Folder} {source : Source} (h : folder.Reads source) :
    b.loadFile folder source = b.load source.locale (folder.treeOf source) := by
  rw [loadFile, show folder.readTable source.path source.given = .ok (folder.treeOf source) from h]
  rfl

/-- Loading files one by one is loading their trees. -/
theorem loadEach_eq_loadTrees {folder : Folder} {sources : List Source} : ∀ (b : Book),
    (∀ source ∈ sources, folder.Reads source) → b.loadEach folder sources = b.loadTrees (folder.treesOf sources) := by
  induction sources with
  | nil => exact fun b _ => rfl
  | cons source sources ih =>
    intro b hr
    obtain ⟨hread, hr⟩ := List.forall_mem_cons.1 hr
    have htrees : folder.treesOf (source :: sources) =
        (source.locale, folder.treeOf source) :: folder.treesOf sources := rfl
    rw [htrees, loadTrees_cons, ← loadFile_eq_load b hread, loadEach, List.foldlM_cons]
    exact congrArg _ (funext fun b' => ih b' hr)

/-! ## When trees can be loaded -/

/-- A tree may be a locale's: it is a phrase tree that is not too deep. -/
def Admits (b : Book) (tree : Table) : Prop :=
  1 ≤ b.shelf.options.maxDepth ∧ Table.fits b.shelf.options.maxDepth tree = true

/-- Loading keeps the options, the default locale and the locales that there are. -/
theorem options_load {locale : String} {tree : Table} (h : b.load locale tree = .ok b') :
    b'.shelf.options = b.shelf.options := by
  obtain ⟨edition, -, -, rfl⟩ := load_eq_ok h
  rfl

theorem defaultLocale_load {locale : String} {tree : Table} (h : b.load locale tree = .ok b') :
    b'.defaultLocale = b.defaultLocale := by
  obtain ⟨edition, -, -, rfl⟩ := load_eq_ok h
  rfl

theorem locales_load {locale : String} {tree : Table} (h : b.load locale tree = .ok b') :
    b'.locales = if locale ∈ b.locales then b.locales else b.locales ++ [locale] := by
  obtain ⟨edition, -, -, rfl⟩ := load_eq_ok h
  exact Ordered.keys_put ..

theorem mem_locales_load {locale other : String} {tree : Table} (h : b.load locale tree = .ok b') :
    other ∈ b'.locales ↔ other ∈ b.locales ∨ other = locale := by
  obtain ⟨edition, -, -, rfl⟩ := load_eq_ok h
  exact Ordered.mem_keys_put

/-- Into a sound book every phrase tree can be loaded. -/
theorem Sound.exists_edition (hs : b.Sound) (locale : String) {tree : Table} (h : b.Admits tree) :
    ∃ edition, Edition.ofTable b.shelf.options.maxDepth (Table.overlay (b.base locale) tree) = .ok edition := by
  have hfits := Table.fits_overlay tree (hs.fits_base locale) h.2
  exact ⟨_, map_eq_ok_iff.2 ⟨_, Table.leaves_eq_ok_iff.2 ⟨⟨h.1, hfits⟩, rfl⟩, rfl⟩⟩

/-- Into a sound book a tree can be loaded exactly if it is a phrase tree. -/
theorem exists_load_iff (hs : b.Sound) (locale : String) {tree : Table} (hp : Table.isProper tree = true) :
    (∃ b', b.load locale tree = .ok b') ↔ b.Admits tree := by
  constructor
  · rintro ⟨b', h⟩
    obtain ⟨entries, hleaves, -⟩ := bind_eq_ok_iff.1 h
    have hover := (Table.leaves_eq_ok_iff.1 hleaves).1
    exact ⟨hover.1, Table.fits_of_overlay tree hp (hs.fits_base locale) hover.2⟩
  · intro h
    obtain ⟨edition, h⟩ := hs.exists_edition locale h
    exact ⟨_, load_eq_ok_iff.2 ⟨edition, h, rfl⟩⟩

/-- Into a sound book some trees can be loaded one after the other exactly if each is a phrase tree. -/
theorem exists_loadTrees_iff {trees : List (String × Table)} : ∀ {b : Book}, b.Sound →
    (∀ item ∈ trees, Table.isProper item.2 = true) →
      ((∃ b', b.loadTrees trees = .ok b') ↔ ∀ item ∈ trees, b.Admits item.2) := by
  induction trees with
  | nil => exact fun _ _ => ⟨fun _ item hitem => (by cases hitem), fun _ => ⟨_, rfl⟩⟩
  | cons item trees ih =>
    intro b hs hp
    obtain ⟨locale, tree⟩ := item
    obtain ⟨ht, hp⟩ := List.forall_mem_cons.1 hp
    rw [List.forall_mem_cons, ← exists_load_iff hs locale ht]
    -- what is admitted is the same after the first load
    have hadmits : ∀ {c}, b.load locale tree = .ok c → ∀ tree', c.Admits tree' ↔ b.Admits tree' := by
      intro c hc tree'
      rw [Admits, Admits, options_load hc]
    constructor
    · rintro ⟨b', h⟩
      obtain ⟨c, hc, h⟩ := bind_eq_ok_iff.1 ((loadTrees_cons ..).symm.trans h)
      refine ⟨⟨c, hc⟩, fun item hitem => (hadmits hc item.2).1 ?_⟩
      exact (ih (hs.load hc) hp).1 ⟨b', h⟩ item hitem
    · rintro ⟨⟨c, hc⟩, hall⟩
      obtain ⟨b', h⟩ := (ih (hs.load hc) hp).2 fun item hitem => (hadmits hc item.2).2 (hall item hitem)
      exact ⟨b', (loadTrees_cons ..).trans (bind_eq_ok_iff.2 ⟨c, hc, h⟩)⟩

/-! ## Books that agree on some locales -/

/-- Two books have the same locales, and the same of some of them. -/
structure AgreeOn (on : String → Prop) (b c : Book) : Prop where
  defaultLocale : b.defaultLocale = c.defaultLocale
  options : b.shelf.options = c.shelf.options
  locales : b.locales = c.locales
  edition : ∀ locale, on locale → b.editions.get? locale = c.editions.get? locale

/-- A new tree for one of some locales is laid over the tree of one of them: the default locale is among them, or all of
them are loaded. -/
def Closed (on : String → Prop) (b : Book) : Prop := on b.defaultLocale ∨ ∀ locale, on locale → locale ∈ b.locales

variable {on : String → Prop}

theorem AgreeOn.refl (on : String → Prop) (b : Book) : AgreeOn on b b := ⟨rfl, rfl, rfl, fun _ _ => rfl⟩

theorem AgreeOn.trans {d : Book} (h : AgreeOn on b c) (h' : AgreeOn on c d) : AgreeOn on b d :=
  ⟨h.defaultLocale.trans h'.defaultLocale, h.options.trans h'.options, h.locales.trans h'.locales,
    fun locale hon => (h.edition locale hon).trans (h'.edition locale hon)⟩

theorem Closed.load (hc : Closed on b) {locale : String} {tree : Table} (h : b.load locale tree = .ok b') :
    Closed on b' := by
  rcases hc with hd | hall
  · left
    rw [defaultLocale_load h]
    exact hd
  · right
    exact fun l hl => (mem_locales_load h).2 (Or.inl (hall l hl))

/-- Below a new tree for one of the locales lies the same in both books. -/
theorem AgreeOn.base (h : AgreeOn on b c) (hc : Closed on b) {locale : String} (hon : on locale) :
    b.base locale = c.base locale := by
  unfold Book.base
  rw [← h.edition locale hon]
  cases he : b.editions.get? locale with
  | some edition => rfl
  | none =>
    have hd : on b.defaultLocale := by
      refine hc.resolve_right fun hall => ?_
      exact Ordered.get?_eq_none_iff.1 he (hall locale hon)
    rw [← h.defaultLocale, h.edition _ hd]

/-- A load keeps books in agreement if it is the same load for both, or one of another locale. -/
theorem AgreeOn.load (h : AgreeOn on b c) (hc : Closed on b) {locale : String} {tree tree' : Table}
    (hsame : on locale → tree = tree') (hb : b.load locale tree = .ok b') (hc' : c.load locale tree' = .ok c') :
    AgreeOn on b' c' := by
  refine ⟨?_, ?_, ?_, ?_⟩
  · rw [defaultLocale_load hb, defaultLocale_load hc', h.defaultLocale]
  · rw [options_load hb, options_load hc', h.options]
  · rw [locales_load hb, locales_load hc', h.locales]
  · intro other hon
    by_cases hl : other = locale
    · subst hl
      obtain rfl := hsame hon
      obtain ⟨edition, he, rfl⟩ := load_eq_ok_iff.1 hb
      obtain ⟨edition', he', rfl⟩ := load_eq_ok_iff.1 hc'
      rw [← h.base hc hon, ← h.options, he] at he'
      cases he'
      rw [get?_editions_enter, get?_editions_enter, if_pos rfl, if_pos rfl]
    · rw [get?_editions_load hb hl, get?_editions_load hc' hl]
      exact h.edition other hon

/-- Loading another locale, which is there already, changes nothing of the locales in question. -/
theorem AgreeOn.load_left (h : AgreeOn on b c) {locale : String} {tree : Table} (hoff : ¬ on locale)
    (hmem : locale ∈ b.locales) (hb : b.load locale tree = .ok b') : AgreeOn on b' c := by
  refine ⟨?_, ?_, ?_, ?_⟩
  · rw [defaultLocale_load hb, h.defaultLocale]
  · rw [options_load hb, h.options]
  · rw [locales_load hb, if_pos hmem, h.locales]
  · intro other hon
    have hne : other ≠ locale := fun heq => hoff (heq ▸ hon)
    rw [get?_editions_load hb hne]
    exact h.edition other hon

/-- Loading the same trees into books that agree leaves them in agreement. -/
theorem AgreeOn.loadTrees {trees : List (String × Table)} : ∀ {b c : Book}, AgreeOn on b c → Closed on b →
    b.loadTrees trees = .ok b' → c.loadTrees trees = .ok c' → AgreeOn on b' c' := by
  induction trees with
  | nil =>
    intro b c h _ hb hc
    cases hb
    cases hc
    exact h
  | cons item trees ih =>
    intro b c h hclosed hb hc
    obtain ⟨locale, tree⟩ := item
    obtain ⟨b₁, hb₁, hb⟩ := bind_eq_ok_iff.1 ((loadTrees_cons ..).symm.trans hb)
    obtain ⟨c₁, hc₁, hc⟩ := bind_eq_ok_iff.1 ((loadTrees_cons ..).symm.trans hc)
    exact ih (h.load hclosed (fun _ => rfl) hb₁ hc₁) (hclosed.load hb₁) hb hc

theorem Closed.loadTrees {trees : List (String × Table)} {b : Book} (h : Closed on b)
    (hb : b.loadTrees trees = .ok b') : Closed on b' :=
  loadTrees_induct (motive := fun _ c => Closed on c) h (fun hc hload => hc.load hload) hb

/-- Two runs of loads that differ in one tree, for a locale that is not in question, leave books in agreement. -/
theorem AgreeOn.of_replaced (hclosed : Closed on b) {before after : List (String × Table)} {locale : String}
    {tree tree' : Table} (hoff : ¬ on locale) (hc : b.loadTrees (before ++ (locale, tree) :: after) = .ok c)
    (hc' : b.loadTrees (before ++ (locale, tree') :: after) = .ok c') : AgreeOn on c c' := by
  rw [loadTrees_append] at hc hc'
  obtain ⟨d, hd, hc⟩ := bind_eq_ok_iff.1 hc
  rw [hd, ok_bind] at hc'
  obtain ⟨d₁, hd₁, hc⟩ := bind_eq_ok_iff.1 ((loadTrees_cons ..).symm.trans hc)
  obtain ⟨d₂, hd₂, hc'⟩ := bind_eq_ok_iff.1 ((loadTrees_cons ..).symm.trans hc')
  have hclosed' := hclosed.loadTrees hd
  have hagree : AgreeOn on d₁ d₂ := (AgreeOn.refl on d).load hclosed' (fun hl => absurd hl hoff) hd₁ hd₂
  exact hagree.loadTrees (hclosed'.load hd₁) hc hc'

/-- The locales after some loads are those from before and those that were loaded. -/
theorem mem_locales_loadTrees {trees : List (String × Table)} {locale : String} {b : Book}
    (hb : b.loadTrees trees = .ok b') : locale ∈ b'.locales ↔ locale ∈ b.locales ∨ locale ∈ trees.map (·.1) := by
  refine loadTrees_induct (motive := fun trees c => locale ∈ c.locales ↔ locale ∈ b.locales ∨ locale ∈ trees.map (·.1))
    (by simp) (fun hc hload => ?_) hb
  rw [mem_locales_load hload, hc, List.map_append, List.mem_append, List.map_singleton, List.mem_singleton, or_assoc]

/-! ## Bulk loading against loading one by one -/

variable {folder : Folder} {sources : List Source} {each bulk : Book}

/-- If all trees of some files can be loaded, so can the last ones of each locale. -/
theorem exists_loadTrees_lastOfEach (hs : b.Sound) (hr : ∀ source ∈ sources, folder.Reads source)
    (h : b.loadTrees (folder.treesOf sources) = .ok each) :
    ∃ bulk, b.loadTrees (folder.treesOf (lastOfEach sources)) = .ok bulk := by
  have hproper : ∀ item ∈ folder.treesOf sources, Table.isProper item.2 = true := by
    intro item hitem
    obtain ⟨source, hsource, rfl⟩ := List.mem_map.1 hitem
    exact (hr source hsource).isProper
  have hsubset : folder.treesOf (lastOfEach sources) ⊆ folder.treesOf sources :=
    List.map_subset _ (lastOfEach_subset sources)
  have hall := (exists_loadTrees_iff hs hproper).1 ⟨each, h⟩
  exact (exists_loadTrees_iff hs fun item hitem => hproper item (hsubset hitem)).2 fun item hitem =>
    hall item (hsubset hitem)

/-- Loading all trees and loading the last ones of each locale agree on locales that are listed once at most. -/
theorem agreeOn_lastOfEach (hs : b.Sound) (hclosed : Closed on b) : ∀ {each bulk : Book},
    (∀ source ∈ sources, folder.Reads source) →
    (∀ locale, on locale → (sources.map Source.locale).count locale ≤ 1) →
    b.loadTrees (folder.treesOf sources) = .ok each →
    b.loadTrees (folder.treesOf (lastOfEach sources)) = .ok bulk → AgreeOn on each bulk := by
  induction sources using List.reverseRecOn with
  | nil =>
    intro each bulk _ _ heach hbulk
    cases heach
    cases hbulk
    exact AgreeOn.refl on b
  | append_singleton sources source ih =>
    intro each bulk hr hon heach hbulk
    have hr₀ : ∀ source ∈ sources, folder.Reads source := fun source hs => hr source (List.mem_append_left _ hs)
    have hon₀ : ∀ locale, on locale → (sources.map Source.locale).count locale ≤ 1 := by
      intro locale hl
      refine Nat.le_trans ?_ (hon locale hl)
      rw [List.map_append, List.count_append]
      exact Nat.le_add_right _ _
    rw [Folder.treesOf, List.map_append, List.map_singleton, loadTrees_concat] at heach
    obtain ⟨each₀, heach₀, heach⟩ := bind_eq_ok_iff.1 heach
    obtain ⟨bulk₀, hbulk₀⟩ := exists_loadTrees_lastOfEach hs hr₀ heach₀
    have hagree : AgreeOn on each₀ bulk₀ := ih hr₀ hon₀ heach₀ hbulk₀
    rw [Folder.treesOf_lastOfEach, byLocale_concat, Ordered.mapValues_put] at hbulk
    rw [Folder.treesOf_lastOfEach] at hbulk₀
    cases hget : ((byLocale sources).mapValues folder.treeOf).get? source.locale with
    | none =>
      -- a new locale is loaded last in both runs
      rw [Ordered.put_of_not_mem (Ordered.get?_eq_none_iff.1 hget), loadTrees_concat, hbulk₀, ok_bind] at hbulk
      exact hagree.load (hclosed.loadTrees heach₀) (fun _ => rfl) heach hbulk
    | some old =>
      -- another tree takes the place of the last one of the locale, which is not among those in question
      obtain ⟨before, after, hitems, hput⟩ := Ordered.exists_append_of_get? hget
      have hlisted : source.locale ∈ (byLocale sources).keys := by
        rw [← Ordered.keys_mapValues folder.treeOf]
        exact List.mem_map_of_mem (Ordered.mem_of_get? hget)
      have hoff : ¬ on source.locale := by
        intro hl
        have hcount := hon source.locale hl
        have hpos := List.count_pos_iff.2 (mem_keys_byLocale.1 hlisted)
        rw [List.map_append, List.count_append, List.map_singleton, List.count_singleton_self] at hcount
        omega
      have hmem : source.locale ∈ each₀.locales := by
        rw [hagree.locales, mem_locales_loadTrees hbulk₀]
        exact Or.inr (List.mem_map_of_mem (Ordered.mem_of_get? hget))
      rw [hput] at hbulk
      rw [hitems] at hbulk₀
      exact (hagree.load_left hoff hmem heach).trans (.of_replaced hclosed hoff hbulk₀ hbulk)

end Book

namespace Session

/-- **Bulk loading keeps the last file of each locale.** Files that can be loaded one by one can be loaded in bulk. That
is loading the last file of each locale one by one: there are the same locales, the book is the same if no locale is
listed twice, and else a locale that is listed once has the same phrases, unless it is new and the default locale is
listed twice. -/
theorem Reachable.loadFiles_agrees {s : Session} (hs : s.Reachable) {workers : Option Int}
    (hw : workers.any (· ≤ 0) = false) {sources : List Source} {each : Book}
    (h : s.book.loadEach s.folder sources = .ok each) :
    ∃ bulk, s.book.loadFiles s.folder workers sources = (bulk, .ok ()) ∧
      s.book.loadEach s.folder (lastOfEach sources) = .ok bulk ∧ bulk.locales = each.locales ∧
      ((sources.map Source.locale).Nodup → bulk = each) ∧
      ∀ locale, (sources.map Source.locale).count locale ≤ 1 →
        (locale ∈ s.book.locales ∨ (sources.map Source.locale).count s.book.defaultLocale ≤ 1) →
          bulk.editions.get? locale = each.editions.get? locale := by
  have hr := Book.reads_of_loadEach h
  have hlast : ∀ source ∈ lastOfEach sources, s.folder.Reads source := fun source hsource =>
    hr source (lastOfEach_subset sources hsource)
  have heach := (Book.loadEach_eq_loadTrees s.book hr).symm.trans h
  obtain ⟨bulk, hbulk⟩ := Book.exists_loadTrees_lastOfEach hs.sound hr heach
  have hagree : ∀ {on : String → Prop}, Book.Closed on s.book →
      (∀ locale, on locale → (sources.map Source.locale).count locale ≤ 1) → Book.AgreeOn on each bulk :=
    fun hclosed hon => Book.agreeOn_lastOfEach hs.sound hclosed hr hon heach hbulk
  refine ⟨bulk, ?_, (Book.loadEach_eq_loadTrees s.book hlast).trans hbulk, ?_, ?_, ?_⟩
  · rw [Book.loadFiles, Folder.readAll_eq_ok hw hr]
    exact Book.loadAll_eq_of_loadTrees hbulk
  · have hclosed : Book.Closed (fun _ => False) s.book := Or.inr fun _ hl => hl.elim
    exact (hagree hclosed fun _ hl => hl.elim).locales.symm
  · intro hn
    rw [lastOfEach_eq_self hn, heach] at hbulk
    exact (Except.ok.inj hbulk).symm
  · intro locale honce hbase
    rcases hbase with hloaded | hdefault
    · have hclosed : Book.Closed (· = locale) s.book := Or.inr fun _ hl => hl ▸ hloaded
      exact ((hagree hclosed fun _ hl => hl ▸ honce).edition locale rfl).symm
    · have hclosed : Book.Closed (fun l => l = locale ∨ l = s.book.defaultLocale) s.book := Or.inl (Or.inr rfl)
      have hon : ∀ l, l = locale ∨ l = s.book.defaultLocale → (sources.map Source.locale).count l ≤ 1 := by
        rintro l (rfl | rfl)
        · exact honce
        · exact hdefault
      exact ((hagree hclosed hon).edition locale (Or.inl rfl)).symm

/-- A session beside two files. -/
def shelved : Session :=
  (blank "en" {} 4 (by decide)).after
    [.write (.ofText "a.yaml") (.file "a: A".toUTF8), .write (.ofText "b.yaml") (.file "b: B".toUTF8)]

theorem shelved_reachable : shelved.Reachable := ⟨_, _, initial_blank "en" {} 4 (by decide), rfl⟩

/-- Files for two locales are loaded in bulk as they are one by one. -/
theorem loadFiles_agrees_two_files :
    let sources : List Source := [.ofText "a.yaml" "en", .ofText "b.yaml" "fr"]
    shelved.Reachable ∧ (none : Option Int).any (· ≤ 0) = false ∧ (sources.map Source.locale).Nodup ∧
      ∃ each, shelved.book.loadEach shelved.folder sources = .ok each ∧
        shelved.book.loadFiles shelved.folder none sources = (each, .ok ()) := by
  intro sources
  have hw : (none : Option Int).any (· ≤ 0) = false := rfl
  have hn : (sources.map Source.locale).Nodup := by decide
  have hsome : (shelved.book.loadEach shelved.folder sources).toOption.isSome = true := by decide +kernel
  obtain ⟨each, h⟩ := Option.isSome_iff_exists.1 hsome
  have h := toOption_eq_some_iff.1 h
  obtain ⟨bulk, hbulk, -, -, hsame, -⟩ := shelved_reachable.loadFiles_agrees hw h
  obtain rfl := hsame hn
  exact ⟨shelved_reachable, hw, hn, bulk, h, hbulk⟩

/-- Of two files for one locale, loading one by one keeps the keys of both, and bulk loading those of the last. -/
theorem loadFiles_loses_a_key :
    let sources : List Source := [.ofText "a.yaml" "en", .ofText "b.yaml" "en"]
    let keysOf (b : Book) : Option (List String) := (b.editions.get? "en").map fun edition => edition.texts.keys
    let loaded := shelved.book.loadFiles shelved.folder none sources
    shelved.Reachable ∧ (shelved.book.loadEach shelved.folder sources).toOption.map keysOf = some (some ["a", "b"]) ∧
      loaded.2.toOption = some () ∧ keysOf loaded.1 = some ["b"] := by
  intro sources keysOf loaded
  exact ⟨shelved_reachable, by decide +kernel, by decide +kernel, by decide +kernel⟩

end Session

end Phrasebook
