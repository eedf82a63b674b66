import Phrasebook.Plural.Family
import Phrasebook.Proofs.Appearance

/-!
# Leaves sorted into phrases

Each leaf belongs to one phrase (`phraseOf`): that of its base path if it is a variant, else that of its own path.

* `splitVariant?_eq_some_iff`: which paths are those of variants.
* `keys_collect`, `ordinary_collect` and `get?_families_collect`: what a grouping makes of leaves with different paths.
* `leaves_of_phrase`: the leaves of a phrase are one ordinary leaf or its variants, in their order.
-/

namespace Phrasebook.Plural

/-! ## Paths of variants -/

theorem Category.ofName?_eq_some_iff {name : String} {c : Category} : ofName? name = some c ↔ name = c.name := by
  constructor
  · intro h
    exact (name_of_ofName? h).symm
  · rintro rfl
    exact ofName?_name c

theorem Category.hash_not_mem_name (c : Category) : '#' ∉ c.name.toList := by cases c <;> decide

/-- A path is that of a variant exactly if it is written as one and the last key of its base path is not empty. -/
theorem splitVariant?_eq_some_iff {path base : String} {category : Category} :
    splitVariant? path = some (base, category) ↔
      path = variantPath base category ∧ base ≠ "" ∧ base.toList.getLast? ≠ some '.' := by
  have hpath : path = variantPath base category ↔ path.toList = base.toList ++ '#' :: category.name.toList := by
    rw [← String.toList_inj]
    simp [variantPath]
  unfold splitVariant?
  simp only [Option.bind_eq_bind, Option.bind_eq_some_iff, Option.ite_none_left_eq_some, Option.some.injEq,
    Prod.mk.injEq, Category.ofName?_eq_some_iff, Prod.exists, Text.cutAtLast?_eq_some_iff]
  rw [hpath]
  constructor
  · rintro ⟨before, token, ⟨hp, -⟩, _, hn, hb, rfl, rfl⟩
    simp only [Bool.or_eq_true, List.isEmpty_iff, decide_eq_true_eq, not_or] at hb
    refine ⟨?_, ?_, ?_⟩
    · rw [hp, ← hn, String.toList_ofList, String.toList_ofList]
    · intro he
      exact hb.1 (by simpa using congrArg String.toList he)
    · rw [String.toList_ofList]
      exact hb.2
  · rintro ⟨hp, hne, hdot⟩
    refine ⟨base.toList, category.name.toList, ⟨hp, category.hash_not_mem_name⟩, category, ?_, ?_, ?_, rfl⟩
    · rw [String.ofList_toList]
    · simpa [hne] using hdot
    · rw [String.ofList_toList]

/-- The path of the phrase that a leaf belongs to. -/
def phraseOf (path : String) : String :=
  match splitVariant? path with
  | none => path
  | some (base, _) => base

/-- The leaves of a phrase, in their order. -/
def leavesOf (key : String) (entries : List Entry) : List Entry := entries.filter fun entry => phraseOf entry.path = key

/-- The category and the value of a leaf that is a variant of a base path. -/
def variantOf? (base : String) (entry : Entry) : Option (Category × Value) :=
  match splitVariant? entry.path with
  | none => none
  | some (base', category) => if base' = base then some (category, entry.value) else none

/-- The variants of a base path among some leaves, in their order. -/
def variantsOf (base : String) (entries : List Entry) : Variants := entries.filterMap (variantOf? base)

/-- The leaf of a variant. -/
def variantLeaf (base : String) (item : Category × Value) : Entry := ⟨variantPath base item.1, item.2⟩

/-- The leaves that are no variants, in their order. -/
def ordinaryOf (entries : List Entry) : Ordered String Value :=
  entries.filterMap fun entry => if splitVariant? entry.path = none then some (entry.path, entry.value) else none

theorem variantOf?_eq_some_iff {base : String} {entry : Entry} {category : Category} {value : Value} :
    variantOf? base entry = some (category, value) ↔
      splitVariant? entry.path = some (base, category) ∧ entry.value = value := by
  unfold variantOf?
  cases splitVariant? entry.path with
  | none => simp
  | some split => simp [Option.ite_none_right_eq_some, Prod.ext_iff, and_assoc]

theorem mem_variantsOf {base : String} {category : Category} {value : Value} {entries : List Entry} :
    (category, value) ∈ variantsOf base entries ↔
      ∃ entry ∈ entries, splitVariant? entry.path = some (base, category) ∧ entry.value = value := by
  simp only [variantsOf, List.mem_filterMap, variantOf?_eq_some_iff]

theorem mem_ordinaryOf {path : String} {value : Value} {entries : List Entry} :
    (path, value) ∈ ordinaryOf entries ↔ ⟨path, value⟩ ∈ entries ∧ splitVariant? path = none := by
  simp only [ordinaryOf, List.mem_filterMap, Option.ite_none_right_eq_some, Option.some.injEq]
  constructor
  · rintro ⟨entry, he, hs, h⟩
    cases h
    exact ⟨he, hs⟩
  · rintro ⟨he, hs⟩
    exact ⟨⟨path, value⟩, he, hs, rfl⟩

theorem nodup_keys_ordinaryOf {entries : List Entry} (hn : (entries.map Entry.path).Nodup) :
    (ordinaryOf entries).keys.Nodup := by
  have hsub : (ordinaryOf entries).keys.Sublist (entries.map Entry.path) := by
    induction entries with
    | nil => exact .slnil
    | cons entry entries ih =>
      have ih := ih (List.nodup_cons.1 hn).2
      rw [ordinaryOf, List.filterMap_cons]
      by_cases hs : splitVariant? entry.path = none
      · rw [if_pos hs]
        exact ih.cons_cons entry.path
      · rw [if_neg hs]
        exact ih.cons entry.path
  exact hn.sublist hsub

/-! ## What a grouping holds -/

theorem path_ne_of_nodup_concat {entries : List Entry} {entry : Entry}
    (hn : ((entries ++ [entry]).map Entry.path).Nodup) : ∀ e ∈ entries, e.path ≠ entry.path := by
  intro e he hp
  rw [List.map_append, List.nodup_append] at hn
  exact hn.2.2 e.path (List.mem_map_of_mem he) entry.path (by simp) hp

theorem nodup_of_nodup_concat {entries : List Entry} {entry : Entry}
    (hn : ((entries ++ [entry]).map Entry.path).Nodup) : (entries.map Entry.path).Nodup := by
  rw [List.map_append, List.nodup_append] at hn
  exact hn.1

/-- The category of a variant with a new path is new in its family. -/
theorem category_not_mem_of_nodup_concat {entries : List Entry} {entry : Entry}
    (hn : ((entries ++ [entry]).map Entry.path).Nodup) {base : String} {category : Category}
    (hs : splitVariant? entry.path = some (base, category)) : category ∉ (variantsOf base entries).keys := by
  intro hmem
  obtain ⟨⟨_, value⟩, hitem, rfl⟩ := List.mem_map.1 hmem
  obtain ⟨e, he, hes, -⟩ := mem_variantsOf.1 hitem
  refine path_ne_of_nodup_concat hn e he ?_
  rw [(splitVariant?_eq_some_iff.1 hes).1, (splitVariant?_eq_some_iff.1 hs).1]

namespace Grouping

theorem collect_concat (entries : List Entry) (entry : Entry) :
    collect (entries ++ [entry]) = (collect entries).add entry := by
  rw [collect, List.foldl_append]
  rfl

/-- The keys are the paths of the phrases, each once, in order of first appearance. -/
theorem keys_collect (entries : List Entry) :
    (collect entries).keys = (entries.map fun entry => phraseOf entry.path).eraseDups := by
  induction entries using List.reverseRecOn with
  | nil => rfl
  | append_singleton entries entry ih =>
    have hadd : ((collect entries).add entry).keys = addKey (phraseOf entry.path) (collect entries).keys := by
      unfold add phraseOf
      cases splitVariant? entry.path <;> rfl
    rw [collect_concat, hadd, addKey, ih, List.map_append, List.map_singleton, eraseDups_concat]
    simp only [List.mem_eraseDups]

/-- The ordinary phrases are the leaves that are no variants. -/
theorem ordinary_collect {entries : List Entry} (hn : (entries.map Entry.path).Nodup) :
    (collect entries).ordinary = ordinaryOf entries := by
  induction entries using List.reverseRecOn with
  | nil => rfl
  | append_singleton entries entry ih =>
    have ih := ih (nodup_of_nodup_concat hn)
    rw [collect_concat, ordinaryOf, List.filterMap_append, ← ordinaryOf, ← ih, add]
    cases hs : splitVariant? entry.path with
    | some split => simp [hs]
    | none =>
      have hnew : entry.path ∉ (collect entries).ordinary.keys := by
        rw [ih]
        intro hmem
        obtain ⟨⟨_, value⟩, hitem, rfl⟩ := List.mem_map.1 hmem
        obtain ⟨he, -⟩ := mem_ordinaryOf.1 hitem
        exact path_ne_of_nodup_concat hn _ he rfl
      simp [hs, Ordered.put_of_not_mem hnew]

/-- The family of a base path is its variants among the leaves, if there are any. -/
theorem get?_families_collect {entries : List Entry} (hn : (entries.map Entry.path).Nodup) (base : String) :
    (collect entries).families.get? base =
      if variantsOf base entries = [] then none else some (variantsOf base entries) := by
  induction entries using List.reverseRecOn with
  | nil => rfl
  | append_singleton entries entry ih =>
    have ih := ih (nodup_of_nodup_concat hn)
    rw [collect_concat, variantsOf, List.filterMap_append, ← variantsOf, add]
    cases hs : splitVariant? entry.path with
    | none => simpa [hs, variantOf?] using ih
    | some split =>
      obtain ⟨base', category⟩ := split
      simp only [Ordered.get?_put, variantOf?, hs, List.filterMap_cons, List.filterMap_nil]
      by_cases hb : base' = base
      · subst hb
        have hnew := category_not_mem_of_nodup_concat hn hs
        have hold : ((collect entries).families.get? base').getD [] = variantsOf base' entries := by
          rw [ih]
          split
          · next hnil => rw [hnil]; rfl
          · rfl
        rw [hold, Ordered.put_of_not_mem hnew]
        simp
      · simp [hb, ih]

end Grouping

/-! ## The leaves of a phrase -/

/-- Without an ordinary leaf of the same path, the leaves of a phrase are its variants. -/
theorem leavesOf_eq_map_variantsOf {key : String} {entries : List Entry}
    (h : ∀ entry ∈ entries, entry.path = key → splitVariant? entry.path ≠ none) :
    leavesOf key entries = (variantsOf key entries).map (variantLeaf key) := by
  induction entries with
  | nil => rfl
  | cons entry entries ih =>
    have ih := ih fun e he => h e (List.mem_cons_of_mem entry he)
    unfold leavesOf variantsOf at ih ⊢
    cases hv : variantOf? key entry with
    | some item =>
      obtain ⟨category, value⟩ := item
      obtain ⟨hs, rfl⟩ := variantOf?_eq_some_iff.1 hv
      have hp := (splitVariant?_eq_some_iff.1 hs).1
      have hk : phraseOf entry.path = key := by rw [phraseOf, hs]
      have hleaf : variantLeaf key (category, entry.value) = entry := by rw [variantLeaf, ← hp]
      rw [List.filter_cons_of_pos (by simpa using hk), List.filterMap_cons_some hv, ih, List.map_cons, hleaf]
    | none =>
      have hne : phraseOf entry.path ≠ key := by
        unfold phraseOf
        cases hs : splitVariant? entry.path with
        | none => exact fun hp => h entry List.mem_cons_self hp hs
        | some split =>
          rintro rfl
          simp [variantOf?, hs] at hv
      rw [List.filter_cons_of_neg (by simpa using hne), List.filterMap_cons_none hv, ih]

/-- Without variants, the leaves of a phrase are those with its path. -/
theorem path_of_mem_leavesOf {key : String} {entries : List Entry} (h : variantsOf key entries = []) {entry : Entry}
    (he : entry ∈ leavesOf key entries) : entry.path = key ∧ splitVariant? entry.path = none := by
  rw [leavesOf, List.mem_filter, decide_eq_true_eq, phraseOf] at he
  obtain ⟨he, hp⟩ := he
  split at hp
  · next hs => exact ⟨hp, hs⟩
  · next base category hs =>
    subst hp
    have hmem : (category, entry.value) ∈ variantsOf base entries := mem_variantsOf.2 ⟨entry, he, hs, rfl⟩
    rw [h] at hmem
    cases hmem

/-- Items with the same image under a map that has no image twice are one item. -/
theorem eq_singleton_of_nodup_map {α β : Type} {f : α → β} {xs : List α} {x : α} (hn : (xs.map f).Nodup) (hx : x ∈ xs)
    (h : ∀ y ∈ xs, f y = f x) : xs = [x] := by
  match xs with
  | [y] => rw [List.mem_singleton.1 hx]
  | y :: z :: xs =>
    have hyz : f y = f z := (h y (by simp)).trans (h z (by simp)).symm
    simp [hyz] at hn

/-- **The leaves of a phrase.** In a grouping without a clash, the leaves of a phrase are the variants of its family, in
their order, or one leaf with its path. -/
theorem leaves_of_phrase {entries : List Entry} (hn : (entries.map Entry.path).Nodup)
    (hc : (Grouping.collect entries).clash? = none) {key : String} (hk : key ∈ (Grouping.collect entries).keys) :
    (∃ variants, (Grouping.collect entries).families.get? key = some variants ∧
        leavesOf key entries = variants.map (variantLeaf key)) ∨
      ∃ value, (Grouping.collect entries).families.get? key = none ∧
        (Grouping.collect entries).ordinary.get? key = some value ∧ leavesOf key entries = [⟨key, value⟩] := by
  have hfam := Grouping.get?_families_collect hn key
  by_cases hv : variantsOf key entries = []
  · rw [if_pos hv] at hfam
    rw [Grouping.keys_collect, List.mem_eraseDups] at hk
    obtain ⟨entry, he, hp⟩ := List.mem_map.1 hk
    have hmem : entry ∈ leavesOf key entries := List.mem_filter.2 ⟨he, by simpa using hp⟩
    obtain ⟨rfl, hs⟩ := path_of_mem_leavesOf hv hmem
    refine Or.inr ⟨entry.value, hfam, ?_, ?_⟩
    · rw [Grouping.ordinary_collect hn]
      exact Ordered.get?_of_mem (nodup_keys_ordinaryOf hn) (mem_ordinaryOf.2 ⟨he, hs⟩)
    · have hsub : ((leavesOf entry.path entries).map Entry.path).Nodup :=
        hn.sublist (List.filter_sublist.map Entry.path)
      exact eq_singleton_of_nodup_map hsub hmem fun e h => (path_of_mem_leavesOf hv h).1
  · rw [if_neg hv] at hfam
    refine Or.inl ⟨_, hfam, leavesOf_eq_map_variantsOf ?_⟩
    intro entry he hp hs
    subst hp
    have hord : (Grouping.collect entries).ordinary.has entry.path = true := by
      rw [Grouping.ordinary_collect hn, Ordered.has_iff]
      exact List.mem_map_of_mem (f := (·.1)) (mem_ordinaryOf.2 ⟨he, hs⟩)
    have hfam' : (Grouping.collect entries).families.has entry.path = true := by rw [Ordered.has, hfam]; rfl
    refine List.find?_eq_none.1 hc _ hk ?_
    rw [hord, hfam']
    rfl

end Phrasebook.Plural
