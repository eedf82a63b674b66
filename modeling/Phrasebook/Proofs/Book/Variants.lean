import Phrasebook.Proofs.Book.Answering
import Phrasebook.Proofs.Book.History
import Phrasebook.Proofs.Book.Representative
import Phrasebook.Proofs.Number.Exact
import Phrasebook.Proofs.Plural.Partition

/-!
# Which variant a count selects

A count that has a category selects the first variant there is among those for zero, if it is zero, for its category and
for all other counts (`Plural.preferred`, `Plural.PickedFrom`).

* `Book.variantIn_eq`: that is what is looked for among the texts of a locale.
* `Plural.mem_leaves_iff_get?_families`: a path that is put together from a plural phrase and a category is that of a
  leaf exactly if the family of the phrase has the category, with the same value.
* `Session.variants_exact`: in every session the variant is found for every locale that is loaded, and a call for a
  plural phrase in the representative locale is answered from one of the variants in its family.
-/

namespace Phrasebook

namespace Plural

/-- The categories in which a variant is looked for, best first. -/
def preferred (count : Value) (category : Category) : List Category :=
  (if count.rational? = some 0 then [.zero] else []) ++ [category, .other]

/-- What is picked from some categories: the first one that there is, or none. -/
inductive PickedFrom (has : Category → Prop) (categories : List Category) : Option Category → Prop
  | first {before : List Category} {category : Category} {after : List Category} :
      categories = before ++ category :: after → has category → (∀ earlier ∈ before, ¬ has earlier) →
        PickedFrom has categories (some category)
  | nothing : (∀ category ∈ categories, ¬ has category) → PickedFrom has categories none

/-- Picking is finding the first. -/
theorem pickedFrom_find? {has : Category → Prop} {test : Category → Bool}
    (h : ∀ category, test category = true ↔ has category) (categories : List Category) :
    PickedFrom has categories (categories.find? test) := by
  cases hfind : categories.find? test with
  | none =>
    refine .nothing fun category hmem hhas => ?_
    exact List.find?_eq_none.1 hfind category hmem ((h category).2 hhas)
  | some category =>
    obtain ⟨htest, before, after, hsplit, hbefore⟩ := List.find?_eq_some_iff_append.1 hfind
    refine .first hsplit ((h category).1 htest) fun earlier hmem hhas => ?_
    simpa [(h earlier).2 hhas] using hbefore earlier hmem

/-- What is picked does not depend on how the categories are told that there are. -/
theorem PickedFrom.congr {has has' : Category → Prop} (h : ∀ category, has category ↔ has' category)
    {categories : List Category} {picked : Option Category} (hp : PickedFrom has categories picked) :
    PickedFrom has' categories picked := by
  have heq : has = has' := funext fun category => propext (h category)
  rwa [← heq]

/-- A path that is put together from a plural phrase and a category is that of a leaf exactly if the family of the
phrase has the category, with the same value. -/
theorem mem_leaves_iff_get?_families {entries : List Entry} (hn : (entries.map Entry.path).Nodup) {key : String}
    {variants : Variants} (h : (Grouping.collect entries).families.get? key = some variants) {category : Category}
    {value : Value} : ⟨variantPath key category, value⟩ ∈ entries ↔ variants.get? category = some value := by
  rw [Grouping.get?_families_collect hn] at h
  split at h
  · cases h
  · next hne =>
    obtain rfl := Option.some.inj h
    -- some path was split into the phrase and a category, and so is every other one
    obtain ⟨item, hitem⟩ := List.exists_mem_of_ne_nil _ hne
    obtain ⟨entry, -, hsplit, -⟩ := mem_variantsOf.1 hitem
    obtain ⟨-, hkey, hdot⟩ := splitVariant?_eq_some_iff.1 hsplit
    have hpath : splitVariant? (variantPath key category) = some (key, category) :=
      splitVariant?_eq_some_iff.2 ⟨rfl, hkey, hdot⟩
    have hmem : (category, value) ∈ variantsOf key entries ↔ ⟨variantPath key category, value⟩ ∈ entries := by
      rw [mem_variantsOf]
      constructor
      · rintro ⟨entry, he, hs, rfl⟩
        rwa [← (splitVariant?_eq_some_iff.1 hs).1]
      · intro he
        exact ⟨_, he, hpath, rfl⟩
    rw [← hmem]
    exact ⟨Ordered.get?_of_mem (Grouping.nodup_keys_variantsOf hn key), Ordered.mem_of_get?⟩

end Plural

/-- A path is among the texts of a locale exactly if it is that of a leaf of its tree. -/
theorem Edition.has_texts_iff {edition : Edition} {leaves : List Entry}
    (h : edition.texts = leaves.map fun entry => (entry.path, entry.value)) {path : String} :
    edition.texts.has path = true ↔ ∃ value, ⟨path, value⟩ ∈ leaves := by
  rw [Ordered.has_iff, h, Ordered.keys, List.map_map, List.mem_map]
  constructor
  · rintro ⟨⟨_, value⟩, hentry, rfl⟩
    exact ⟨value, hentry⟩
  · rintro ⟨value, hentry⟩
    exact ⟨_, hentry, rfl⟩

namespace Book

variable {b : Book} {repository : Plural.Repository}

theorem candidates_eq {locale : String} {count : Value} {category : Plural.Category} (hc : count.isNumber = true)
    (h : repository.category count locale = .ok category) :
    candidates repository locale count = .ok (Plural.preferred count category) := by
  have hzero : count.agrees (.int 0) = true ↔ count.rational? = some 0 := by
    simpa using Value.agrees_int_iff hc (n := 0)
  unfold candidates Plural.preferred
  rw [h]
  by_cases hz : count.rational? = some 0
  · rw [if_pos hz, ok_bind, if_pos (hzero.2 hz)]
    rfl
  · rw [if_neg hz, ok_bind, if_neg (mt hzero.1 hz)]
    rfl

/-- The outcome of looking for a variant: the path of the one that is picked, or a fault if there is none. -/
def variantPicked (path locale : String) (count : Value) : Option Plural.Category → Except Fault String
  | some category => .ok (Plural.variantPath path category)
  | none => .error (unfit path count locale)

/-- The variant for a count is picked from those whose paths are among the texts. -/
theorem variantIn_eq (texts : Ordered String Value) (path : String) {locale : String} {count : Value}
    {category : Plural.Category} (hc : count.isNumber = true)
    (h : repository.category count locale = .ok category) :
    ∃ picked, Plural.PickedFrom (fun category => texts.has (Plural.variantPath path category) = true)
        (Plural.preferred count category) picked ∧
      variantIn repository texts path locale count = variantPicked path locale count picked := by
  refine ⟨_, Plural.pickedFrom_find? (fun _ => Iff.rfl) _, ?_⟩
  unfold variantIn
  rw [candidates_eq hc h, ok_bind]
  cases (Plural.preferred count category).find? fun category => texts.has (Plural.variantPath path category) <;> rfl

/-- The reply to a call for a plural phrase when one of its variants is picked: the key if there is none, and else what
is made of the text of the variant. -/
def RepliesFrom (variants : Plural.Variants) (call : Call) (count : Value) (reply : Reply String) :
    Option Plural.Category → Prop
  | some category => ∃ value, variants.get? category = some value ∧
      reply.outcome = answered call (Template.fill call.values value) ∧
      reply.refusals = refused call (Template.fill call.values value)
  | none => reply.outcome = .ok call.key ∧
      reply.refusals = [(call.key, unfit (Path.resolve call.key call.scope) count call.locale)]

/-- Variants are selected exactly, and as the families of the representative locale have them. -/
structure VariantsExact (b : Book) : Prop where
  /-- In every locale that is loaded, a variant is picked for a count with a category from those whose paths are paths
  of leaves, and there is a fault only if there is none. -/
  picked : ∀ locale edition, b.editions.get? locale = some edition → ∃ leaves,
    edition.tree.leaves b.shelf.options.maxDepth = .ok leaves ∧ ∀ path count category, count.isNumber = true →
      b.repository.category count locale = .ok category →
        ∃ picked, Plural.PickedFrom (fun category => ∃ value, ⟨Plural.variantPath path category, value⟩ ∈ leaves)
            (Plural.preferred count category) picked ∧
          variantIn b.repository edition.texts path locale count = variantPicked path locale count picked
  /-- The leaves of the representative tree at the paths of variants of a plural phrase are its family. -/
  family : ∀ locale tree issue phrase variants, b.representative? = some (locale, tree) → b.reading = .ok issue →
    issue.catalog.families.get? phrase = some variants → ∃ leaves,
      tree.leaves b.shelf.options.maxDepth = .ok leaves ∧ ∀ category value,
        ⟨Plural.variantPath phrase category, value⟩ ∈ leaves ↔ variants.get? category = some value
  /-- A call for a plural phrase in the representative locale that supplies all and is not remembered is answered from
  the variant that is picked from the family of the phrase. -/
  answered : ∀ locale tree issue phrase variants, b.representative? = some (locale, tree) → b.reading = .ok issue →
    issue.catalog.families.get? phrase = some variants →
      ∃ contract, issue.catalog.contract phrase none = .ok contract ∧ contract.isPlural = true ∧
        ∀ key given values scope, let call := b.callOf key given values scope
          call.locale = locale → Path.resolve key scope = phrase → contract.missing values = [] →
            call.unhashable? = none → b.memo.find? call.same = none →
              ∃ count, values.get? (.text countName) = some count ∧ count.isNumber = true ∧
                ∀ category, b.repository.category count locale = .ok category →
                  ∃ picked, Plural.PickedFrom (variants.has · = true) (Plural.preferred count category) picked ∧
                    RepliesFrom variants call count (b.get key given values scope).2 picked

/-- The catalog that is read is that of the representative tree. -/
theorem ofTable_of_reading (hs : b.Sound) {locale : String} {tree : Table} {issue : Issue}
    (hr : b.representative? = some (locale, tree)) (h : b.reading = .ok issue) :
    (Catalog.ofTable b.shelf.options tree).outcome = .ok issue.catalog ∧ b.analysis = .ok issue.catalog := by
  have hanalysis : b.analysis = .ok issue.catalog := by
    rw [← outcome_catalog hs, ← reading, h]
    rfl
  refine ⟨?_, hanalysis⟩
  rw [analysis, hr] at hanalysis
  exact hanalysis

/-- A call that supplies all that a plural phrase asks for is written from the variant that is found. -/
theorem rendering_eq_variant {call : Call} {edition : Edition} {catalog : Catalog} {contract : Contract}
    {count : Value} (hu : call.unhashable? = none) (he : b.editions.get? call.locale = some edition)
    (ha : b.analysis = .ok catalog)
    (hk : catalog.contract (Path.resolve call.key call.scope) none = .ok contract) (hp : contract.isPlural = true)
    (hm : contract.missing call.values = []) (hcount : call.values.get? (.text countName) = some count) :
    b.rendering call =
      variantIn b.repository edition.texts (Path.resolve call.key call.scope) call.locale count >>= fun path =>
        textAt edition.texts path call.locale >>= Template.fill call.values := by
  simp only [rendering, hu, he, ha, ok_bind, write_eq, hk, hm, if_true, pathUnder, hp, hcount, Option.getD_some]

/-- What such a call is replied: what is made of the text of the variant that is picked, or its key. -/
theorem repliesFrom_of_miss (hs : b.Sound) {call : Call} (hmiss : b.memo.find? call.same = none) {edition : Edition}
    {variants : Plural.Variants} {count : Value} {picked : Option Plural.Category}
    (hvalue : ∀ category, edition.texts.get? (Plural.variantPath (Path.resolve call.key call.scope) category) =
      variants.get? category)
    (hpicked : ∀ category, picked = some category → variants.has category = true)
    (hrendering : b.rendering call = variantPicked (Path.resolve call.key call.scope) call.locale count picked >>=
      fun path => textAt edition.texts path call.locale >>= Template.fill call.values) :
    RepliesFrom variants call count (b.answer call).2 picked := by
  have houtcome := (answer_of_miss hs hmiss).1
  have hrefusals := refusals_of_miss hs hmiss
  cases picked with
  | some category =>
    obtain ⟨value, hget⟩ := Option.isSome_iff_exists.1 (hpicked category rfl)
    have htext : textAt edition.texts (Plural.variantPath (Path.resolve call.key call.scope) category) call.locale =
        .ok value := by
      rw [textAt_eq_ok_iff, hvalue, hget]
    rw [variantPicked, ok_bind, htext, ok_bind] at hrendering
    rw [hrendering] at houtcome hrefusals
    exact ⟨value, hget, houtcome, hrefusals⟩
  | none =>
    have hfault : b.rendering call = .error (unfit (Path.resolve call.key call.scope) count call.locale) :=
      hrendering
    have he := Fault.escapes_of_isCaught (isCaught_unfit (Path.resolve call.key call.scope) count call.locale)
    rw [hfault] at houtcome hrefusals
    rw [answered_error call he] at houtcome
    rw [refused_error call he] at hrefusals
    exact ⟨houtcome, hrefusals⟩

/-- What there is to know about a representative tree of which the catalog is read. -/
theorem History.representative {loads : List Load} (h : History loads b) {locale : String} {tree : Table}
    {issue : Issue} (hr : b.representative? = some (locale, tree)) (hreading : b.reading = .ok issue) :
    ∃ edition, b.editions.get? locale = some edition ∧ edition.tree = tree ∧ Table.isProper tree = true ∧
      (Catalog.ofTable b.shelf.options tree).outcome = .ok issue.catalog ∧
      (issue.catalog.entries.map Entry.path).Nodup := by
  obtain ⟨htable, -⟩ := ofTable_of_reading h.sound hr hreading
  obtain ⟨edition, he, rfl⟩ := Option.map_eq_some_iff.1 (treeOf_of_representative? hr)
  have hp := h.isProper he
  exact ⟨edition, he, rfl, hp, htable, Table.nodup_paths_leaves hp (Catalog.ofTable_eq_ok htable).1⟩

/-- In a book with a history, variants are selected exactly. -/
theorem History.variantsExact {loads : List Load} (h : History loads b) : b.VariantsExact where
  picked := by
    intro locale edition he
    obtain ⟨leaves, hl, htexts⟩ := h.sound.edition locale edition he
    refine ⟨leaves, hl, fun path count category hc hcategory => ?_⟩
    obtain ⟨picked, hpicked, hvariant⟩ := variantIn_eq edition.texts path hc hcategory
    exact ⟨picked, hpicked.congr fun _ => Edition.has_texts_iff htexts, hvariant⟩
  family := by
    intro locale tree issue phrase variants hr hreading hf
    obtain ⟨-, -, -, -, htable, hn⟩ := h.representative hr hreading
    obtain ⟨hl, -, -, hfamilies, -⟩ := Catalog.ofTable_eq_ok htable
    rw [hfamilies] at hf
    exact ⟨_, hl, fun category value => Plural.mem_leaves_iff_get?_families hn hf⟩
  answered := by
    intro locale tree issue phrase variants hr hreading hf
    obtain ⟨edition, he, rfl, hproper, htable, hn⟩ := h.representative hr hreading
    obtain ⟨hl, -, -, hfamilies, -⟩ := Catalog.ofTable_eq_ok htable
    have hplural : issue.catalog.isPlural phrase none = true := by
      rw [Catalog.isPlural, Path.resolve, Ordered.has, hf]
      rfl
    obtain ⟨contract, hk, hp⟩ := (Catalog.isPlural_iff htable hn phrase none).1 hplural
    refine ⟨contract, hk, hp, ?_⟩
    intro key given values scope call hlocale hphrase hm hu hmiss
    obtain ⟨count, hcount, hc⟩ := (Contract.missing_eq_nil_iff.1 hm).2 hp
    refine ⟨count, hcount, hc, fun category hcategory => ?_⟩
    subst hlocale hphrase
    obtain ⟨picked, hpicked, hvariant⟩ := variantIn_eq edition.texts (Path.resolve key scope) hc hcategory
    have hvalue : ∀ category, edition.texts.get? (Plural.variantPath (Path.resolve key scope) category) =
        variants.get? category := by
      intro category
      refine Option.ext fun value => ?_
      rw [Edition.get?_texts (h.sound.edition _ _ he) hproper, ← Table.mem_leaves_iff hproper hl]
      exact Plural.mem_leaves_iff_get?_families hn (hfamilies ▸ hf)
    have hfamily : Plural.PickedFrom (variants.has · = true) (Plural.preferred count category) picked :=
      hpicked.congr fun category => by rw [Ordered.has, hvalue, Ordered.has]
    have hanalysis := (ofTable_of_reading h.sound hr hreading).2
    refine ⟨picked, hfamily, repliesFrom_of_miss h.sound hmiss hvalue ?_ ?_⟩
    · rintro category rfl
      cases hfamily with
      | first _ hhas _ => exact hhas
    · exact (rendering_eq_variant hu he hanalysis hk hp hm hcount).trans (congrArg (· >>= _) hvariant)

end Book

namespace Session

/-- **Variants are selected exactly, and as the families of the representative locale have them**, in every session and
with any repository of plural rules. -/
theorem variants_exact {folder : Folder} {defaultLocale : String} {options : Options} {capacity : Int}
    {opening : Opening} {repository : Plural.Repository} {first : Session}
    (h : start folder defaultLocale options capacity opening repository = .ok first) {steps : List Step}
    (hs : ∀ step ∈ opening.steps defaultLocale ++ steps, step.isProper = true) :
    (first.after steps).book.repository = repository ∧ (first.after steps).book.VariantsExact := by
  refine ⟨repository_of_start h steps, ?_⟩
  obtain ⟨empty, hempty, rfl⟩ := start_eq_ok h
  have hhistory := history_after hempty hs
  rw [after_append] at hhistory
  exact hhistory.variantsExact

/-- A count of zero has a variant of its own, another one has that for all others, and where a family has neither the
key is given back. -/
theorem variants_exact_cats :
    let steps : List Step := [.loadTree "en" [(.text "cat#zero", .text "No cats"),
      (.text "cat#other", .text "{count} cats"), (.text "dog#one", .text "A dog")]]
    let s := (blank "en" {} 4 (by decide)).after steps
    let ask := fun key count => (s.book.get key none [(.text "count", .int count)] none).2
    (∀ step ∈ Opening.nothing.steps "en" ++ steps, step.isProper = true) ∧ s.book.VariantsExact ∧
      (ask "cat" 0).outcome.toOption = some "No cats" ∧ (ask "cat" 2).outcome.toOption = some "2 cats" ∧
      (ask "dog" 2).outcome.toOption = some "dog" ∧ (ask "dog" 2).refusals.map Prod.fst = ["dog"] := by
  intro steps s ask
  have hs : ∀ step ∈ Opening.nothing.steps "en" ++ steps, step.isProper = true := by decide +kernel
  exact ⟨hs, (variants_exact (start_blank "en" {} 4 (by decide)) hs).2, by decide +kernel, by decide +kernel,
    by decide +kernel, by decide +kernel⟩

/-- **That there is no variant need not be told**: the fault quotes the count, which may have too many digits. -/
theorem long_count_is_not_quoted :
    let s := (blank "ja" {} 4 (by decide)).after [.loadTree "ja" [(.text "dog#one", .text "A dog")]]
    let count : Value := .int Value.wholeLimit
    s.Reachable ∧ count.isNumber = true ∧ s.book.repository.category count "ja" = .ok .other ∧
      ∃ edition, s.book.editions.get? "ja" = some edition ∧
        (∀ category ∈ Plural.preferred count .other,
          edition.texts.has (Plural.variantPath "dog" category) = false) ∧
        Book.variantIn s.book.repository edition.texts "dog" "ja" count = .error .unwritable := by
  intro s count
  have hs : s.Reachable := ⟨_, _, initial_blank "ja" {} 4 (by decide), rfl⟩
  have hcategory : s.book.repository.category count "ja" = .ok .other := by rfl
  have hedition : ((s.book.editions.get? "ja").map fun edition =>
      [Plural.Category.zero, .other].all fun category => !edition.texts.has (Plural.variantPath "dog" category)) =
        some true := by decide +kernel
  obtain ⟨edition, he, hall⟩ := Option.map_eq_some_iff.1 hedition
  have hother : ∀ category ∈ Plural.preferred count .other,
      edition.texts.has (Plural.variantPath "dog" category) = false := by
    intro category hmem
    have hcases : category ∈ [Plural.Category.zero, .other] := by
      unfold Plural.preferred at hmem
      split at hmem
      · simpa using hmem
      · exact List.mem_cons_of_mem _ (by simpa using hmem)
    simpa using List.all_eq_true.1 hall category hcases
  refine ⟨hs, rfl, hcategory, edition, he, hother, ?_⟩
  obtain ⟨picked, hpicked, hvariant⟩ := Book.variantIn_eq edition.texts "dog" rfl hcategory
  rw [hvariant]
  cases hpicked with
  | first hsplit hhas _ =>
    rw [hother _ (hsplit ▸ List.mem_append_cons_self)] at hhas
    cases hhas
  | nothing _ =>
    show Except.error (Book.unfit "dog" count "ja") = _
    exact congrArg _ (Fault.told_eq_unwritable Value.isWritable_wholeLimit)

end Session

end Phrasebook
