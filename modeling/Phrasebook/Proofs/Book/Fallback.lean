import Phrasebook.Proofs.Book.Answering
import Phrasebook.Proofs.Book.History

/-!
# Falling back to the default locale

A locale that is silent about a path (`Silent`) has the text there that the default locale had when the first tree was
loaded for it.

* `History.text_of_silent` says so, and `History.textOf_eq_earlier` when the default locale has had the same text since.
* `History.fallback`: where that is the text that the default locale has now, the locale has it, too, and no call is
  refused for want of a text; `late_default_is_not_inherited`: else it may have none.
-/

namespace Phrasebook

/-- An ordinary phrase of a catalog is a leaf with its contract. -/
theorem Catalog.ordinary_of_mem_keys {options : Options} {tree : Table} (ht : Table.isProper tree = true)
    {catalog : Catalog} (h : (ofTable options tree).outcome = .ok catalog) {key : String} (hk : key ∈ catalog.keys)
    (hp : catalog.isPlural key none = false) :
    (∃ value, (⟨key, value⟩ : Entry) ∈ catalog.entries) ∧
      ∃ contract, catalog.contract key none = .ok contract ∧ contract.isPlural = false := by
  obtain ⟨hl, hc, hkeys, hfam, hcon⟩ := ofTable_eq_ok h
  have hn := Table.nodup_paths_leaves ht hl
  rw [hkeys] at hk
  obtain ⟨contract, hget, hkey⟩ := Contract.exists_get?_of_ofGrouping hcon hk
  obtain ⟨-, hplural, -, -⟩ := Contract.exact_of_ofKey hn hc hk hkey
  have hno : catalog.families.get? key = none := by simpa [isPlural, Path.resolve, Ordered.has] using hp
  constructor
  · rcases Plural.leaves_of_phrase hn hc hk with ⟨variants, hf, -⟩ | ⟨value, -, -, hleaf⟩
    · rw [← hfam, hno] at hf
      cases hf
    · have hmem : (⟨key, value⟩ : Entry) ∈ Plural.leavesOf key catalog.entries := by
        rw [hleaf]
        exact List.mem_singleton_self _
      exact ⟨value, (List.mem_filter.1 hmem).1⟩
  · refine ⟨contract, ?_, ?_⟩
    · rw [Catalog.contract, Path.resolve, hget]
    · rw [hplural, ← hfam, Ordered.has, hno]
      rfl

namespace Book

variable {b : Book} {loads : List Load}

/-- The text of a locale at a path, if it is loaded and has one. -/
def textOf (b : Book) (locale path : String) : Option Value :=
  (b.editions.get? locale).bind fun edition => edition.texts.get? path

/-- None of the trees that were loaded for a locale defines anything at a path, or has a leaf on the way there. -/
def Silent (loads : List Load) (locale path : String) : Prop :=
  ∀ l ∈ loadsOf locale loads, l.tree.touches (Path.segments path) = false

/-- The default locale is loaded, and the path is an ordinary phrase of its catalog. -/
structure IsOrdinary (b : Book) (path : String) : Prop where
  loaded : ∃ edition, b.editions.get? b.defaultLocale = some edition
  phrase : ∃ catalog, b.analysis = .ok catalog ∧ path ∈ catalog.keys ∧ catalog.isPlural path none = false

/-! ## Texts of a history -/

/-- The text of a locale at a path is the leaf that is found along its keys in the tree of the locale. -/
theorem History.textOf_eq (h : History loads b) {locale : String} {edition : Edition}
    (he : b.editions.get? locale = some edition) (path : String) :
    b.textOf locale path = edition.tree.leafAt? (Path.segments path) := by
  rw [textOf, he, Option.bind_some]
  exact Edition.get?_texts (h.sound.edition locale edition he) (h.isProper he) path

/-- What the tree below a new one has along the keys of a path is the text of the default locale. -/
theorem History.leafAt?_base (h : History loads b) {locale : String} (hnew : b.editions.get? locale = none)
    (path : String) : (b.base locale).leafAt? (Path.segments path) = b.textOf b.defaultLocale path := by
  rcases b.base_eq locale with ⟨edition, he, -⟩ | ⟨-, ⟨edition, he, hb⟩ | ⟨he, hb⟩⟩
  · rw [hnew] at he
    cases he
  · rw [hb, h.textOf_eq he]
  · rw [hb, textOf, he]
    cases Path.segments path <;> rfl

/-- The first load of a locale that is loaded. -/
theorem History.first_load (h : History loads b) {locale : String} {edition : Edition}
    (he : b.editions.get? locale = some edition) :
    ∃ earlier first later, loads = earlier ++ first :: later ∧ first.locale = locale ∧ loadsOf locale earlier = [] ∧
      loadsOf locale loads = first :: loadsOf locale later ∧ first.before.editions.get? locale = none ∧
      edition.tree = laidOver (first.before.base locale) (loadsOf locale loads) := by
  have htree := h.tree_of_locale locale
  cases hl : loadsOf locale loads with
  | nil =>
    rw [hl] at htree
    rw [htree] at he
    cases he
  | cons first rest =>
    rw [hl] at htree
    obtain ⟨hnew, edition', he', hover⟩ := htree
    obtain rfl := Option.some.inj (he.symm.trans he')
    obtain ⟨earlier, later, hloads, hnone, hfirst, hrest⟩ := List.filter_eq_cons_iff.1 hl
    refine ⟨earlier, first, later, hloads, of_decide_eq_true hfirst, ?_, ?_, hnew, hover⟩
    · exact List.filter_eq_nil_iff.2 hnone
    · rw [← hrest]
      rfl

/-- Silent trees of a history leave the leaf that is found along the keys of the path. -/
theorem History.leafAt?_laidOver (h : History loads b) {part : List Load} (hpart : part ⊆ loads)
    {locale path : String} (hsilent : Silent part locale path) (base : Table) :
    (laidOver base (loadsOf locale part)).leafAt? (Path.segments path) = base.leafAt? (Path.segments path) :=
  Book.leafAt?_laidOver fun l hl => ⟨h.isProper_of_mem (hpart (List.mem_filter.1 hl).1), hsilent l hl⟩

/-- **A silent locale has what the default locale had.** Its text at the path is that which the default locale of the
time had there when the first tree was loaded for it. -/
theorem History.text_of_silent (h : History loads b) {locale path : String} {edition : Edition}
    (he : b.editions.get? locale = some edition) (hsilent : Silent loads locale path) :
    ∃ earlier first later, loads = earlier ++ first :: later ∧ first.locale = locale ∧ loadsOf locale earlier = [] ∧
      b.textOf locale path = first.before.textOf first.before.defaultLocale path := by
  obtain ⟨earlier, first, later, hloads, hfirst, hnone, -, hnew, htree⟩ := h.first_load he
  refine ⟨earlier, first, later, hloads, hfirst, hnone, ?_⟩
  rw [h.textOf_eq he, htree, h.leafAt?_laidOver (List.Subset.refl _) hsilent]
  exact (h.earlier hloads).1.leafAt?_base hnew path

/-- A locale that is loaded before a load keeps its text at a path if all later loads are silent about it. -/
theorem History.textOf_eq_earlier (h : History loads b) {earlier later : List Load} {l : Load} {locale path : String}
    (hloads : loads = earlier ++ l :: later) (hloaded : ∃ edition, l.before.editions.get? locale = some edition)
    (hsilent : Silent (l :: later) locale path) : l.before.textOf locale path = b.textOf locale path := by
  obtain ⟨old, hold⟩ := hloaded
  have hbefore := (h.earlier hloads).1
  obtain ⟨_, first, _, -, -, -, hcons, -, htree⟩ := hbefore.first_load hold
  have hnow := h.tree_of_locale locale
  rw [hloads, loadsOf_append, hcons, List.cons_append] at hnow
  obtain ⟨-, edition, he, hover⟩ := hnow
  have hpart : l :: later ⊆ loads := by
    rw [hloads]
    exact List.subset_append_right earlier _
  rw [hbefore.textOf_eq hold, h.textOf_eq he, hover, htree, hcons, ← List.cons_append, laidOver_append,
    h.leafAt?_laidOver hpart hsilent]

/-! ## Ordinary phrases -/

/-- The default locale has a text at the path of an ordinary phrase, and the contract there is not plural. -/
theorem History.exists_textOf_default (h : History loads b) {path : String} (ho : b.IsOrdinary path) :
    (∃ value, b.textOf b.defaultLocale path = some value) ∧
      ∃ contract, b.contractOf path = .ok contract ∧ contract.isPlural = false := by
  obtain ⟨⟨edition, he⟩, catalog, hc, hk, hp⟩ := ho
  have hmade : (Catalog.ofTable b.shelf.options edition.tree).outcome = .ok catalog := by
    simpa only [analysis, representative?, he] using hc
  have hproper := h.isProper he
  obtain ⟨⟨value, hmem⟩, contract, hcontract, hplural⟩ := Catalog.ordinary_of_mem_keys hproper hmade hk hp
  constructor
  · rw [h.textOf_eq he]
    exact ⟨value, (Table.mem_leaves_iff hproper (Catalog.ofTable_eq_ok hmade).1).1 hmem⟩
  · exact ⟨contract, bind_eq_ok_iff.2 ⟨catalog, hc, hcontract⟩, hplural⟩

/-- A call for a phrase without variants is not refused for want of a text if its locale has one. -/
theorem not_noText_of_textOf (hs : b.Sound) {call : Call} {contract : Contract} {value : Value}
    (hk : b.contractOf (Path.resolve call.key call.scope) = .ok contract) (hp : contract.isPlural = false)
    (hv : b.textOf call.locale (Path.resolve call.key call.scope) = some value) {key path locale : String} :
    (key, Fault.noText path locale) ∉ (b.answer call).2.refusals := by
  intro hmem
  obtain ⟨-, hr⟩ := rendering_of_mem_refusals hs hmem
  obtain ⟨edition, he, hv⟩ := Option.bind_eq_some_iff.1 hv
  obtain ⟨catalog, hc, hk⟩ := bind_eq_ok_iff.1 hk
  have hpath : pathUnder b.repository contract edition.texts call =
      .ok (Path.resolve call.key call.scope) := by
    rw [pathUnder, if_neg (by simp [hp])]
  have htext : textAt edition.texts (Path.resolve call.key call.scope) call.locale = .ok value :=
    textAt_eq_ok_iff.2 hv
  cases hu : call.unhashable? with
  | some typeName =>
    rw [rendering, hu] at hr
    cases hr
  | none =>
    simp only [rendering, hu, he, hc, ok_bind, write_eq, hk, hpath, htext] at hr
    split at hr
    · rcases Template.kind_of_fill hr with hkind | hkind <;> cases hkind
    · cases hr

/-- No call for the phrase at a path in a locale is refused for want of a text. -/
def NeverLacks (b : Book) (locale path : String) : Prop :=
  ∀ key locale' values scope, (b.callOf key locale' values scope).locale = locale → Path.resolve key scope = path →
    ∀ where' locale'', (key, Fault.noText where' locale'') ∉ (b.get key locale' values scope).2.refusals

/-- What a locale has at the path of an ordinary phrase, where `first` is its first load, `later` are the loads after
that one, and `value` is what the default locale has there now. -/
structure FallsBack (b : Book) (locale path : String) (first : Load) (later : List Load) (value : Value) : Prop where
  /-- it has what the default locale of the time had when the first tree was loaded for it -/
  text : b.textOf locale path = first.before.textOf first.before.defaultLocale path
  now : b.textOf b.defaultLocale path = some value
  /-- the default locale has had the same text since if it is the same and has been silent -/
  since : first.before.defaultLocale = b.defaultLocale →
    (∃ old, first.before.editions.get? b.defaultLocale = some old) → Silent (first :: later) b.defaultLocale path →
    first.before.textOf first.before.defaultLocale path = some value
  /-- if the default locale had the same text, the path is a leaf of the locale with that text -/
  leaf : first.before.textOf first.before.defaultLocale path = some value →
    b.textOf locale path = some value ∧ ∃ edition entries, b.editions.get? locale = some edition ∧
      Table.leaves b.shelf.options.maxDepth edition.tree = .ok entries ∧ ⟨path, value⟩ ∈ entries
  never : first.before.textOf first.before.defaultLocale path = some value → b.NeverLacks locale path

/-- The text of a locale at a path is that of a leaf of its tree. -/
theorem History.leaf_of_textOf (h : History loads b) {locale path : String} {value : Value}
    (hv : b.textOf locale path = some value) : ∃ edition entries, b.editions.get? locale = some edition ∧
      Table.leaves b.shelf.options.maxDepth edition.tree = .ok entries ∧ ⟨path, value⟩ ∈ entries := by
  obtain ⟨edition, he, -⟩ := Option.bind_eq_some_iff.1 hv
  obtain ⟨entries, hl, -⟩ := h.sound.edition locale edition he
  refine ⟨edition, entries, he, hl, (Table.mem_leaves_iff (h.isProper he) hl).2 ?_⟩
  rw [← h.textOf_eq he]
  exact hv

/-- **Falling back.** A loaded locale that is silent about an ordinary phrase has the text there that the default locale
of the time had when the first tree was loaded for it. Whenever that is the text that the default locale has now, the
phrase is a leaf of the locale with that text, and no call for it in the locale is refused for want of a text. -/
theorem History.fallback (h : History loads b) {locale path : String} {edition : Edition}
    (he : b.editions.get? locale = some edition) (ho : b.IsOrdinary path) (hsilent : Silent loads locale path) :
    ∃ earlier first later value, loads = earlier ++ first :: later ∧ first.locale = locale ∧
      loadsOf locale earlier = [] ∧ b.FallsBack locale path first later value := by
  obtain ⟨earlier, first, later, hloads, hfirst, hnone, htext⟩ := h.text_of_silent he hsilent
  obtain ⟨⟨value, hvalue⟩, contract, hcontract, hplural⟩ := h.exists_textOf_default ho
  refine ⟨earlier, first, later, value, hloads, hfirst, hnone, htext, hvalue, ?_, ?_, ?_⟩
  · intro hdefault hold hsince
    rw [hdefault, h.textOf_eq_earlier hloads hold hsince]
    exact hvalue
  · intro hsame
    have hnow : b.textOf locale path = some value := htext.trans hsame
    exact ⟨hnow, h.leaf_of_textOf hnow⟩
  · intro hsame key locale' values scope hlocale hpath where' locale''
    have hk : b.contractOf (Path.resolve key scope) = .ok contract := by
      rw [hpath]
      exact hcontract
    have hv : b.textOf (b.callOf key locale' values scope).locale (Path.resolve key scope) = some value := by
      rw [hlocale, hpath]
      exact htext.trans hsame
    exact not_noText_of_textOf h.sound hk hplural hv

/-- A path is an ordinary phrase if it is one of the keys of the catalog and has no variants. -/
theorem isOrdinary_of_toOption {path : String} {keys : List String}
    (hd : (b.editions.get? b.defaultLocale).isSome = true)
    (hc : (b.analysis.toOption.map fun catalog => (catalog.keys, catalog.isPlural path none)) = some (keys, false))
    (hk : path ∈ keys) : b.IsOrdinary path := by
  refine ⟨Option.isSome_iff_exists.1 hd, ?_⟩
  obtain ⟨catalog, h, heq⟩ := Option.map_eq_some_iff.1 hc
  obtain ⟨rfl, hplural⟩ := Prod.mk.inj heq
  exact ⟨catalog, toOption_eq_some_iff.1 h, hk, hplural⟩

/-- A locale that came after the default one has the phrase that it is silent about. -/
theorem fallback_bye :
    let blank := Session.blank "en" {} 4 (by decide)
    let steps : List Session.Step := [.loadTree "en" [(.text "a", .text "Hi"), (.text "b", .text "Bye")],
      .loadTree "fr" [(.text "a", .text "Salut")]]
    let loads := blank.loads steps
    let b := (blank.after steps).book
    History loads b ∧ b.IsOrdinary "b" ∧ Silent loads "fr" "b" ∧ (b.editions.get? "fr").isSome = true ∧
      ∃ earlier first later value, loads = earlier ++ first :: later ∧ first.locale = "fr" ∧
        loadsOf "fr" earlier = [] ∧ b.FallsBack "fr" "b" first later value := by
  intro blank steps loads b
  have hb : History loads b := Session.history_after (Session.start_blank "en" {} 4 (by decide)) (by decide +kernel)
  have ho : b.IsOrdinary "b" :=
    isOrdinary_of_toOption (by decide +kernel) (show _ = some (["a", "b"], false) by decide +kernel) (by decide)
  have hsilent : Silent loads "fr" "b" := by
    unfold Silent
    decide +kernel
  have hloaded : (b.editions.get? "fr").isSome = true := by decide +kernel
  obtain ⟨edition, he⟩ := Option.isSome_iff_exists.1 hloaded
  exact ⟨hb, ho, hsilent, hloaded, hb.fallback he ho hsilent⟩

/-- A locale that came before the default one has no text for a phrase that only the default locale has, and a call for
it is refused for want of one. -/
theorem late_default_is_not_inherited :
    let blank := Session.blank "en" {} 4 (by decide)
    let steps : List Session.Step := [.loadTree "fr" [(.text "a", .text "Salut")],
      .loadTree "en" [(.text "a", .text "Hi"), (.text "b", .text "Bye")]]
    let loads := blank.loads steps
    let b := (blank.after steps).book
    History loads b ∧ b.IsOrdinary "b" ∧ Silent loads "fr" "b" ∧ (b.editions.get? "fr").isSome = true ∧
      b.textOf "fr" "b" = none ∧ ¬ b.NeverLacks "fr" "b" := by
  intro blank steps loads b
  have hb : History loads b := Session.history_after (Session.start_blank "en" {} 4 (by decide)) (by decide +kernel)
  have ho : b.IsOrdinary "b" :=
    isOrdinary_of_toOption (by decide +kernel) (show _ = some (["a", "b"], false) by decide +kernel) (by decide)
  have hsilent : Silent loads "fr" "b" := by
    unfold Silent
    decide +kernel
  refine ⟨hb, ho, hsilent, by decide +kernel, Option.isNone_iff_eq_none.1 (by decide +kernel), ?_⟩
  intro hnever
  have hrefused : (b.get "b" (some "fr") [] none).2.refusals.any (fun refusal =>
      refusal.1 = "b" && match refusal.2 with
        | .noText _ _ => true
        | _ => false) = true := by decide +kernel
  obtain ⟨⟨key, fault⟩, hmem, hfault⟩ := List.any_eq_true.1 hrefused
  rw [Bool.and_eq_true, decide_eq_true_iff] at hfault
  obtain ⟨rfl, hfault⟩ := hfault
  cases fault with
  | noText where' locale'' => exact hnever "b" (some "fr") [] none rfl rfl where' locale'' hmem
  | _ => cases hfault

end Book

end Phrasebook
