import Phrasebook.Proofs.Contract

/-!
# Grouping loses nothing

Leaves with different paths are sorted into ordinary phrases and families so that every leaf is in one place.

* `Clashes`: a path is that of an ordinary leaf and the base path of a variant. `clash?_collect_eq_some_iff`: such a
  path that comes first is what a grouping fails with.
* `Grouping.leaves` lists the leaves of a grouping again. `Grouping.leaves_add`: adding a new leaf adds it to these, and
  so they are the leaves that were sorted (`Grouping.leaves_collect`).
* `Grouping.Partitions` says where the leaves are in a grouping and how its keys are ordered, and
  `Grouping.partitions_of_ofEntries` that this is so whenever there is no clash, in the catalog of a tree as well.
-/

namespace Phrasebook

namespace Plural

variable {entries : List Entry}

/-! ## Clashes -/

/-- A key is the path of an ordinary leaf and the base path of a variant. -/
def Clashes (entries : List Entry) (key : String) : Prop :=
  (∃ entry ∈ entries, entry.path = key ∧ splitVariant? entry.path = none) ∧
    ∃ entry ∈ entries, ∃ category, splitVariant? entry.path = some (key, category)

/-- The phrases that some leaves belong to, in the order of the leaves. -/
def phrases (entries : List Entry) : List String := entries.map fun entry => phraseOf entry.path

/-- A key clashes, and no other one that does appears before it. -/
def ClashesFirst (entries : List Entry) (key : String) : Prop :=
  Clashes entries key ∧ ∀ other, Clashes entries other → (phrases entries).idxOf key ≤ (phrases entries).idxOf other

theorem Clashes.mem_phrases {key : String} (h : Clashes entries key) : key ∈ phrases entries := by
  obtain ⟨⟨entry, he, rfl, hs⟩, -⟩ := h
  refine List.mem_map.2 ⟨entry, he, ?_⟩
  rw [phraseOf, hs]

namespace Grouping

theorem firstSeen_keys_collect (entries : List Entry) : FirstSeen (collect entries).keys (phrases entries) := by
  rw [keys_collect]
  exact firstSeen_eraseDups _

theorem mem_keys_ordinary_collect (hn : (entries.map Entry.path).Nodup) {key : String} :
    key ∈ (collect entries).ordinary.keys ↔ ∃ entry ∈ entries, entry.path = key ∧ splitVariant? entry.path = none := by
  rw [ordinary_collect hn, Ordered.keys, List.mem_map]
  constructor
  · rintro ⟨⟨path, value⟩, hitem, rfl⟩
    obtain ⟨he, hs⟩ := mem_ordinaryOf.1 hitem
    exact ⟨_, he, rfl, hs⟩
  · rintro ⟨entry, he, rfl, hs⟩
    exact ⟨(entry.path, entry.value), mem_ordinaryOf.2 ⟨he, hs⟩, rfl⟩

theorem mem_keys_families_collect (hn : (entries.map Entry.path).Nodup) {key : String} :
    key ∈ (collect entries).families.keys ↔
      ∃ entry ∈ entries, ∃ category, splitVariant? entry.path = some (key, category) := by
  rw [← Ordered.has_iff, Ordered.has, get?_families_collect hn]
  have hvariants : variantsOf key entries ≠ [] ↔
      ∃ entry ∈ entries, ∃ category, splitVariant? entry.path = some (key, category) := by
    rw [ne_eq, List.eq_nil_iff_forall_not_mem, not_forall_not]
    constructor
    · rintro ⟨⟨category, value⟩, hitem⟩
      obtain ⟨entry, he, hs, -⟩ := mem_variantsOf.1 hitem
      exact ⟨entry, he, category, hs⟩
    · rintro ⟨entry, he, category, hs⟩
      exact ⟨(category, entry.value), mem_variantsOf.2 ⟨entry, he, hs, rfl⟩⟩
  rw [← hvariants]
  by_cases hv : variantsOf key entries = [] <;> simp [hv]

/-- A key clashes exactly if a grouping has it twice. -/
theorem has_and_has_iff_clashes (hn : (entries.map Entry.path).Nodup) {key : String} :
    ((collect entries).ordinary.has key && (collect entries).families.has key) = true ↔ Clashes entries key := by
  rw [Bool.and_eq_true, Ordered.has_iff, Ordered.has_iff, mem_keys_ordinary_collect hn, mem_keys_families_collect hn]
  rfl

/-- The key that a grouping names as a clash is the one that appears first. -/
theorem clash?_collect_eq_some_iff (hn : (entries.map Entry.path).Nodup) {key : String} :
    (collect entries).clash? = some key ↔ ClashesFirst entries key := by
  rw [clash?, (firstSeen_keys_collect entries).find?_eq_some_iff]
  simp only [has_and_has_iff_clashes hn]
  constructor
  · rintro ⟨-, hc, hfirst⟩
    exact ⟨hc, fun other ho => hfirst other ho.mem_phrases ho⟩
  · rintro ⟨hc, hfirst⟩
    exact ⟨hc.mem_phrases, hc, fun other _ ho => hfirst other ho⟩

/-- A grouping names no clash exactly if there is none. -/
theorem clash?_collect_eq_none_iff (hn : (entries.map Entry.path).Nodup) :
    (collect entries).clash? = none ↔ ¬ ∃ key, Clashes entries key := by
  rw [clash?, List.find?_eq_none]
  simp only [has_and_has_iff_clashes hn, not_exists]
  constructor
  · intro h key hc
    exact h key (((firstSeen_keys_collect entries).mem_iff key).2 hc.mem_phrases) hc
  · intro h key _
    exact h key

/-! ## Nothing is lost -/

/-- The leaves of a grouping: the ordinary ones, and then the variants family by family. -/
def leaves (g : Grouping) : List Entry :=
  g.ordinary.map (fun item => ⟨item.1, item.2⟩) ++ g.families.flatMap fun family => family.2.map (variantLeaf family.1)

theorem mem_leaves_of_ordinary {g : Grouping} {path : String} {value : Value} (h : (path, value) ∈ g.ordinary) :
    ⟨path, value⟩ ∈ g.leaves :=
  List.mem_append_left _ (List.mem_map.2 ⟨_, h, rfl⟩)

theorem mem_leaves_of_variant {g : Grouping} {base : String} {variants : Variants} {item : Category × Value}
    (hf : (base, variants) ∈ g.families) (h : item ∈ variants) : variantLeaf base item ∈ g.leaves :=
  List.mem_append_right _ (List.mem_flatMap.2 ⟨_, hf, List.mem_map_of_mem h⟩)

/-- Adding a leaf with a new path adds it and nothing else. -/
theorem leaves_add {g : Grouping} {entry : Entry} (hnew : ∀ e ∈ g.leaves, e.path ≠ entry.path) :
    (g.add entry).leaves.Perm (g.leaves ++ [entry]) := by
  unfold add
  cases hs : splitVariant? entry.path with
  | none =>
    have hkey : entry.path ∉ g.ordinary.keys := by
      intro hmem
      obtain ⟨⟨path, value⟩, hitem, hp⟩ := List.mem_map.1 hmem
      exact hnew _ (mem_leaves_of_ordinary hitem) hp
    simp only [leaves, Ordered.put_of_not_mem hkey, List.map_append, List.map_cons, List.map_nil, List.append_assoc]
    exact List.perm_append_comm.append_left _
  | some split =>
    obtain ⟨base, category⟩ := split
    have hleaf : variantLeaf base (category, entry.value) = entry := by
      rw [variantLeaf, ← (splitVariant?_eq_some_iff.1 hs).1]
    cases hf : g.families.get? base with
    | none =>
      have hkey := Ordered.get?_eq_none_iff.1 hf
      simp [leaves, hf, Ordered.put_of_not_mem hkey, Ordered.put, hleaf]
    | some variants =>
      have hcategory : category ∉ variants.keys := by
        intro hmem
        obtain ⟨item, hitem, hc⟩ := List.mem_map.1 hmem
        refine hnew _ (mem_leaves_of_variant (Ordered.mem_of_get? hf) hitem) ?_
        rw [variantLeaf, hc, (splitVariant?_eq_some_iff.1 hs).1]
      obtain ⟨before, after, hfamilies, hput⟩ := Ordered.exists_append_of_get? hf
      simp only [leaves, hf, Option.getD_some, Ordered.put_of_not_mem hcategory, hput]
      simp only [hfamilies, List.flatMap_append, List.flatMap_cons, List.map_append, List.map_cons, List.map_nil,
        hleaf, List.append_assoc]
      refine List.Perm.append_left _ (List.Perm.append_left _ (List.Perm.append_left _ ?_))
      exact List.perm_append_comm

/-- **Nothing is lost and nothing doubled.** The leaves of a grouping are those that were sorted. -/
theorem leaves_collect (hn : (entries.map Entry.path).Nodup) : (collect entries).leaves.Perm entries := by
  induction entries using List.reverseRecOn with
  | nil => exact .nil
  | append_singleton entries entry ih =>
    have ih := ih (nodup_of_nodup_concat hn)
    rw [collect_concat]
    refine (leaves_add fun e he => ?_).trans (ih.append_right [entry])
    exact path_ne_of_nodup_concat hn e (ih.mem_iff.1 he)

/-! ## Where the leaves are -/

theorem nodup_keys_families_collect (entries : List Entry) : (collect entries).families.keys.Nodup := by
  induction entries using List.reverseRecOn with
  | nil => exact .nil
  | append_singleton entries entry ih =>
    rw [collect_concat, add]
    split
    · exact ih
    · exact Ordered.nodup_keys_put ih

/-- An ordinary leaf is found at its path. -/
theorem get?_ordinary_collect (hn : (entries.map Entry.path).Nodup) {entry : Entry} (he : entry ∈ entries)
    (hs : splitVariant? entry.path = none) : (collect entries).ordinary.get? entry.path = some entry.value := by
  rw [ordinary_collect hn]
  exact Ordered.get?_of_mem (nodup_keys_ordinaryOf hn) (mem_ordinaryOf.2 ⟨he, hs⟩)

/-- No category comes twice in a family. -/
theorem nodup_keys_variantsOf (hn : (entries.map Entry.path).Nodup) (base : String) :
    (variantsOf base entries).keys.Nodup := by
  induction entries using List.reverseRecOn with
  | nil => exact .nil
  | append_singleton entries entry ih =>
    have ih := ih (nodup_of_nodup_concat hn)
    rw [variantsOf, List.filterMap_append, ← variantsOf]
    cases hv : variantOf? base entry with
    | none => simpa [hv] using ih
    | some item =>
      obtain ⟨category, value⟩ := item
      obtain ⟨hs, -⟩ := variantOf?_eq_some_iff.1 hv
      have hnew := category_not_mem_of_nodup_concat hn hs
      simp only [List.filterMap_cons_some hv, List.filterMap_nil]
      rw [← Ordered.put_of_not_mem hnew]
      exact Ordered.nodup_keys_put ih

/-- A variant is found in the family of its base path at its category. -/
theorem get?_variant_collect (hn : (entries.map Entry.path).Nodup) {entry : Entry} (he : entry ∈ entries)
    {base : String} {category : Category} (hs : splitVariant? entry.path = some (base, category)) :
    ∃ variants, (collect entries).families.get? base = some variants ∧ variants.get? category = some entry.value := by
  have hmem : (category, entry.value) ∈ variantsOf base entries := mem_variantsOf.2 ⟨entry, he, hs, rfl⟩
  refine ⟨_, ?_, Ordered.get?_of_mem (nodup_keys_variantsOf hn base) hmem⟩
  rw [get?_families_collect hn, if_neg (List.ne_nil_of_mem hmem)]

/-- The variants of a base path are in the order of the leaves. -/
theorem map_variantsOf_sublist (base : String) (entries : List Entry) :
    ((variantsOf base entries).map (variantLeaf base)).Sublist entries := by
  induction entries with
  | nil => exact .slnil
  | cons entry entries ih =>
    rw [variantsOf]
    cases hv : variantOf? base entry with
    | none =>
      rw [List.filterMap_cons_none hv]
      exact ih.cons entry
    | some item =>
      obtain ⟨category, value⟩ := item
      obtain ⟨hs, rfl⟩ := variantOf?_eq_some_iff.1 hv
      have hleaf : variantLeaf base (category, entry.value) = entry := by
        rw [variantLeaf, ← (splitVariant?_eq_some_iff.1 hs).1]
      rw [List.filterMap_cons_some hv, List.map_cons, hleaf]
      exact ih.cons_cons entry

/-- The phrases of some leaves are those of the ordinary ones and of the variants. -/
theorem mem_phrases_iff {key : String} : key ∈ phrases entries ↔
    (∃ entry ∈ entries, entry.path = key ∧ splitVariant? entry.path = none) ∨
      ∃ entry ∈ entries, ∃ category, splitVariant? entry.path = some (key, category) := by
  simp only [phrases, List.mem_map]
  constructor
  · rintro ⟨entry, he, hp⟩
    unfold phraseOf at hp
    split at hp
    · next hs => exact Or.inl ⟨entry, he, hp, hs⟩
    · next base category hs => exact Or.inr ⟨entry, he, category, hp ▸ hs⟩
  · rintro (⟨entry, he, rfl, hs⟩ | ⟨entry, he, category, hs⟩)
    · exact ⟨entry, he, by rw [phraseOf, hs]⟩
    · exact ⟨entry, he, by rw [phraseOf, hs]⟩

/-- A grouping in which each of some leaves is in one place: an ordinary one at its path, and a variant in the family of
its base path at its category. The keys are those of the ordinary phrases and of the families, in the order of the
first leaf of each. -/
structure Partitions (g : Grouping) (entries : List Entry) : Prop where
  leaves_perm : g.leaves.Perm entries
  ordinary : ∀ entry ∈ entries, splitVariant? entry.path = none → g.ordinary.get? entry.path = some entry.value
  variant : ∀ entry ∈ entries, ∀ base category, splitVariant? entry.path = some (base, category) →
    ∃ variants, g.families.get? base = some variants ∧ variants.get? category = some entry.value
  family : ∀ base variants, (base, variants) ∈ g.families → variants ≠ [] ∧ variants.keys.Nodup ∧
    (variants.map (variantLeaf base)).Sublist entries
  keys_nodup : g.keys.Nodup
  keys_perm : g.keys.Perm (g.ordinary.keys ++ g.families.keys)
  keys_firstSeen : FirstSeen g.keys (phrases entries)

/-- Without a clash each leaf is in one place. -/
theorem partitions_collect (hn : (entries.map Entry.path).Nodup) (hc : (collect entries).clash? = none) :
    (collect entries).Partitions entries where
  leaves_perm := leaves_collect hn
  ordinary _ he hs := get?_ordinary_collect hn he hs
  variant _ he _ _ hs := get?_variant_collect hn he hs
  family base variants hmem := by
    have hget := Ordered.get?_of_mem (nodup_keys_families_collect entries) hmem
    rw [get?_families_collect hn] at hget
    split at hget
    · cases hget
    · next hne =>
      cases hget
      exact ⟨hne, nodup_keys_variantsOf hn base, map_variantsOf_sublist base entries⟩
  keys_nodup := (firstSeen_keys_collect entries).nodup
  keys_perm := by
    have hdisjoint : ((collect entries).ordinary.keys ++ (collect entries).families.keys).Nodup := by
      refine List.nodup_append.2 ⟨?_, nodup_keys_families_collect entries, ?_⟩
      · rw [ordinary_collect hn]
        exact nodup_keys_ordinaryOf hn
      · rintro key ho _ hf rfl
        refine (clash?_collect_eq_none_iff hn).1 hc ⟨key, ?_, ?_⟩
        · exact (mem_keys_ordinary_collect hn).1 ho
        · exact (mem_keys_families_collect hn).1 hf
    refine (List.perm_ext_iff_of_nodup (firstSeen_keys_collect entries).nodup hdisjoint).2 fun key => ?_
    rw [(firstSeen_keys_collect entries).mem_iff, mem_phrases_iff, List.mem_append, mem_keys_ordinary_collect hn,
      mem_keys_families_collect hn]
  keys_firstSeen := firstSeen_keys_collect entries

end Grouping

end Plural

/-! ## In the catalog of a tree -/

/-- A phrase of a catalog is plural exactly if its contract asks for a count; what is no phrase is not plural. -/
theorem Catalog.isPlural_iff {options : Options} {tree : Table} {catalog : Catalog}
    (h : (ofTable options tree).outcome = .ok catalog) (hn : (catalog.entries.map Entry.path).Nodup) (key : String)
    (scope : Option String) : catalog.isPlural key scope = true ↔
      ∃ contract, catalog.contract key scope = .ok contract ∧ contract.isPlural = true := by
  obtain ⟨-, hc, hkeys, hfamilies, hcontracts⟩ := ofTable_eq_ok h
  have hpartitions := Plural.Grouping.partitions_collect hn hc
  rw [isPlural, contract, hfamilies]
  by_cases hk : Path.resolve key scope ∈ (Plural.Grouping.collect catalog.entries).keys
  · obtain ⟨found, hget, hkey⟩ := Contract.exists_get?_of_ofGrouping hcontracts hk
    obtain ⟨-, hplural, -⟩ := Contract.exact_of_ofKey hn hc hk hkey
    simp [hget, hplural]
  · have hget : catalog.contracts.get? (Path.resolve key scope) = none := by
      rw [Ordered.get?_eq_none_iff, Contract.keys_of_ofGrouping hcontracts]
      exact hk
    have hfamily : (Plural.Grouping.collect catalog.entries).families.has (Path.resolve key scope) = false := by
      rw [Bool.eq_false_iff, ne_eq, Ordered.has_iff]
      intro hmem
      exact hk (hpartitions.keys_perm.mem_iff.2 (List.mem_append_right _ hmem))
    simp [hget, hfamily]

namespace Plural.Grouping

/-- A grouping answers unless there is a clash, and names the clash that appears first. -/
theorem outcome_ofEntries (entries : List Entry) :
    (ofEntries entries).outcome = match (collect entries).clash? with
      | some key => .error (.clash key)
      | none => .ok (collect entries) := rfl

/-- A grouping answers exactly if no key clashes, and then each leaf is in one place; else it names the key that
clashes first. -/
theorem ofEntries_cases (hn : (entries.map Entry.path).Nodup) :
    (∃ key, (ofEntries entries).outcome = .error (.clash key) ∧ ClashesFirst entries key) ∨
      (ofEntries entries).outcome = .ok (collect entries) ∧ (¬ ∃ key, Clashes entries key) ∧
        (collect entries).Partitions entries := by
  rw [outcome_ofEntries]
  cases hc : (collect entries).clash? with
  | some key => exact Or.inl ⟨key, rfl, (clash?_collect_eq_some_iff hn).1 hc⟩
  | none => exact Or.inr ⟨rfl, (clash?_collect_eq_none_iff hn).1 hc, partitions_collect hn hc⟩

/-- **Grouping partitions the leaves.** Leaves with different paths are sorted unless some path is that of an ordinary
leaf and the base path of a variant, and then the fault names the first such path. What they are sorted into has each
leaf in one place; in the catalog of a tree there are the phrases and the contracts of such a grouping, in its order. -/
theorem partitions_of_ofEntries :
    (∀ path base category, splitVariant? path = some (base, category) ↔
      path = base ++ "#" ++ category.name ∧ base ≠ "" ∧ base.toList.getLast? ≠ some '.') ∧
    (∀ entries : List Entry, (entries.map Entry.path).Nodup →
      ((∃ fault, (ofEntries entries).outcome = .error fault) ↔ ∃ key, Clashes entries key) ∧
      (∀ fault, (ofEntries entries).outcome = .error fault → ∃ key, fault = .clash key ∧ ClashesFirst entries key) ∧
      ∀ g, (ofEntries entries).outcome = .ok g → g.Partitions entries) ∧
    ∀ (options : Options) (tree : Table) (catalog : Catalog), Table.isProper tree = true →
      (Catalog.ofTable options tree).outcome = .ok catalog →
      tree.leaves options.maxDepth = .ok catalog.entries ∧ ∃ g, (ofEntries catalog.entries).outcome = .ok g ∧
        g.Partitions catalog.entries ∧ catalog.keys = g.keys ∧ catalog.families = g.families ∧
        catalog.contracts.keys = catalog.keys ∧ ∀ key scope, catalog.isPlural key scope = g.isPlural key scope ∧
          (catalog.isPlural key scope = true ↔
            ∃ contract, catalog.contract key scope = .ok contract ∧ contract.isPlural = true) := by
  refine ⟨fun path base category => splitVariant?_eq_some_iff, fun entries hn => ?_, ?_⟩
  · rcases ofEntries_cases hn with ⟨key, ho, hfirst⟩ | ⟨ho, hnone, hpartitions⟩
    · rw [ho]
      refine ⟨iff_of_true ⟨_, rfl⟩ ⟨key, hfirst.1⟩, fun fault h => ?_, fun g h => (by cases h)⟩
      cases h
      exact ⟨key, rfl, hfirst⟩
    · rw [ho]
      refine ⟨iff_of_false (fun ⟨_, h⟩ => (by cases h)) hnone, fun fault h => (by cases h), fun g h => ?_⟩
      cases h
      exact hpartitions
  · intro options tree catalog hp h
    obtain ⟨hl, hc, hkeys, hfamilies, hcontracts⟩ := Catalog.ofTable_eq_ok h
    have hn := Table.nodup_paths_leaves hp hl
    have ho : (ofEntries catalog.entries).outcome = .ok (collect catalog.entries) := by rw [outcome_ofEntries, hc]
    refine ⟨hl, _, ho, partitions_collect hn hc, hkeys, hfamilies, ?_, fun key scope => ⟨?_, ?_⟩⟩
    · rw [Contract.keys_of_ofGrouping hcontracts, hkeys]
    · rw [Catalog.isPlural, hfamilies]
      rfl
    · exact Catalog.isPlural_iff h hn key scope

/-- Base paths that hold a `#`, one of them the path of a variant of another one, and a path without a base path; and
leaves of which one path is both. -/
theorem partitions_of_ofEntries_hashes :
    let tree : Table := [(.text "a#one#other", .text "{count} of {n}"),
      (.text "s", .table [(.text "#one", .text "odd")]), (.text "a#one#few", .text "few"), (.text "a#one", .text "one")]
    let entries : List Entry := [⟨"a#one", .text "one"⟩, ⟨"b#two", .text "two"⟩, ⟨"b", .null⟩, ⟨"a", .text "a"⟩]
    Table.isProper tree = true ∧ (entries.map Entry.path).Nodup ∧
      (∃ catalog, (Catalog.ofTable {} tree).outcome = .ok catalog ∧ catalog.keys = ["a#one", "s.#one", "a"] ∧
        catalog.contracts.keys = catalog.keys ∧ ∃ g, (ofEntries catalog.entries).outcome = .ok g ∧
          g.Partitions catalog.entries) ∧
      ∃ key, (ofEntries entries).outcome = .error (.clash key) ∧ ClashesFirst entries key := by
  intro tree entries
  have hp : Table.isProper tree = true := by decide +kernel
  have hn : (entries.map Entry.path).Nodup := by decide +kernel
  obtain ⟨-, hall, hcatalog⟩ := partitions_of_ofEntries
  refine ⟨hp, hn, ?_, ?_⟩
  · have hrun : (Catalog.ofTable {} tree).outcome.toOption.map Catalog.keys = some ["a#one", "s.#one", "a"] := by
      decide +kernel
    obtain ⟨catalog, hmade, hkeys⟩ := Option.map_eq_some_iff.1 hrun
    have hmade := toOption_eq_some_iff.1 hmade
    obtain ⟨-, g, ho, hpartitions, -, -, hcontracts, -⟩ := hcatalog {} tree catalog hp hmade
    exact ⟨catalog, hmade, hkeys, hcontracts, g, ho, hpartitions⟩
  · obtain ⟨hclash, hfirst, -⟩ := hall entries hn
    have hb : Clashes entries "b" := by
      refine ⟨⟨⟨"b", .null⟩, by simp [entries], rfl, by decide +kernel⟩, ?_⟩
      exact ⟨⟨"b#two", .text "two"⟩, by simp [entries], .two, by decide +kernel⟩
    obtain ⟨fault, ho⟩ := hclash.2 ⟨"b", hb⟩
    obtain ⟨key, rfl, hkey⟩ := hfirst fault ho
    exact ⟨key, ho, hkey⟩

end Plural.Grouping

end Phrasebook
