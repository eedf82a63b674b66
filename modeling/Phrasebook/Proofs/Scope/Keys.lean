import Mathlib.Data.List.Nodup
import Phrasebook.Proofs.Scope.Nesting
import Phrasebook.Proofs.Tree.Branches

/-!
# The scopes of a catalog and the keys in them

* `Plural.ancestors_phraseOf`: a variant lies in the same scopes as its phrase, so that the keys of a catalog have the
  scopes of the leaves.
* `Catalog.isPlural_of_mem_scopes`: a scope is no phrase but one of variants.
* `Catalog.mem_keysIn_iff` and `Catalog.map_resolve_keysIn`: the keys in a scope are those that resolve to a phrase.
* `Catalog.scopes_and_keys_exact` puts them together.
-/

namespace Phrasebook

/-- What is made of the members of a list does not depend on members that come again. -/
theorem eraseDups_flatMap_eraseDups {α β : Type} [DecidableEq α] [DecidableEq β] (f : α → List β) (xs : List α) :
    (xs.eraseDups.flatMap f).eraseDups = (xs.flatMap f).eraseDups := by
  induction xs using List.reverseRecOn with
  | nil => rfl
  | append_singleton xs x ih =>
    have hmem : ∀ b, b ∈ xs.eraseDups.flatMap f ↔ b ∈ xs.flatMap f := by
      intro b
      simp only [List.mem_flatMap, List.mem_eraseDups]
    rw [eraseDups_concat, List.flatMap_append, List.flatMap_singleton, List.eraseDups_append]
    split
    · next hx =>
      have hold : (f x).removeAll (xs.flatMap f) = [] := by
        refine List.filter_eq_nil_iff.2 fun b hb => ?_
        simpa using ⟨x, hx, hb⟩
      rw [ih, hold, List.eraseDups_nil, List.append_nil]
    · have hnew : (f x).removeAll (xs.eraseDups.flatMap f) = (f x).removeAll (xs.flatMap f) := by
        refine List.filter_congr fun b _ => ?_
        simp [hmem]
      rw [List.flatMap_append, List.flatMap_singleton, List.eraseDups_append, ih, hnew]

/-! ## Paths relative to a scope -/

namespace Path

variable {path key scope : String}

theorem join_ne_empty {keys : List String} (hne : keys ≠ []) (hk : ∀ key ∈ keys, isKey key = true) :
    join keys ≠ "" := by
  obtain ⟨key, keys, rfl⟩ := List.exists_cons_of_ne_nil hne
  cases keys with
  | nil =>
    rw [join_singleton]
    exact (isKey_iff.1 (hk key List.mem_cons_self)).1
  | cons key' keys =>
    rw [join_cons key (List.cons_ne_nil _ _)]
    exact under_ne_empty _ _

/-- A scope of a path has some of the keys that lead to it, but neither none nor all. -/
theorem exists_of_mem_ancestors {keys : List String} (hne : keys ≠ []) (hk : ∀ key ∈ keys, isKey key = true)
    (h : scope ∈ ancestors (join keys)) :
    ∃ before more, keys = before ++ more ∧ before ≠ [] ∧ more ≠ [] ∧ scope = join before := by
  rw [ancestors, segments_join hne hk] at h
  obtain ⟨n, hn, rfl⟩ := List.mem_map.1 h
  rw [List.mem_range] at hn
  refine ⟨keys.take (n + 1), keys.drop (n + 1), (List.take_append_drop _ _).symm, ?_, ?_, rfl⟩
  · simpa using hne
  · rw [Ne, List.drop_eq_nil_iff]
    omega

/-- A path has a key relative to a scope exactly if that key leads from the scope to it. -/
theorem relative?_eq_some_iff (hp : path ≠ "") {scope : Option String} :
    relative? path scope = some key ↔ key ≠ "" ∧ path = resolve key scope := by
  have hroot : some path = some key ↔ key ≠ "" ∧ path = key := by
    rw [Option.some_inj]
    exact ⟨fun h => ⟨h ▸ hp, h⟩, fun h => h.2⟩
  cases scope with
  | none => exact hroot
  | some scope =>
    by_cases hs : scope = ""
    · rw [relative?, resolve, if_pos hs, if_pos hs]
      exact hroot
    · rw [resolve_some hs]
      constructor
      · intro h
        rw [relative?, if_neg hs] at h
        split at h
        · next c cs hafter =>
          obtain rfl := Option.some.inj h
          refine ⟨?_, ?_⟩
          · simp
          · rw [← String.toList_inj, toList_under, Text.after?_eq_some_iff.1 hafter]
            simp
        · cases h
      · rintro ⟨hkey, rfl⟩
        exact relative?_under hs hkey

end Path

/-! ## The scopes of phrases -/

namespace Plural

/-- The phrase of a leaf below a scope is the phrase without the scope. -/
theorem phraseOf_under (scope path : String) : phraseOf (Path.under scope path) = Path.under scope (phraseOf path) := by
  rw [phraseOf, phraseOf, splitVariant?_under]
  cases splitVariant? path <;> rfl

theorem phraseOf_ne_empty {path : String} (h : path ≠ "") : phraseOf path ≠ "" := by
  unfold phraseOf
  cases hsplit : splitVariant? path with
  | none => exact h
  | some split => exact (splitVariant?_eq_some_iff.1 hsplit).2.1

theorem isKey_phraseOf {key : String} (h : Path.isKey key = true) : Path.isKey (phraseOf key) = true := by
  obtain ⟨hne, hdot⟩ := Path.isKey_iff.1 h
  refine Path.isKey_iff.2 ⟨phraseOf_ne_empty hne, ?_⟩
  unfold phraseOf
  cases hsplit : splitVariant? key with
  | none => exact hdot
  | some split =>
    rw [(splitVariant?_eq_some_iff.1 hsplit).1, variantPath] at hdot
    intro hmem
    exact hdot (by simp [hmem])

/-- The mark of a variant is in the last key of its path, so that the scopes are those of the phrase. -/
theorem ancestors_phraseOf {keys : List String} (hne : keys ≠ []) (hk : ∀ key ∈ keys, Path.isKey key = true) :
    Path.ancestors (phraseOf (Path.join keys)) = Path.ancestors (Path.join keys) := by
  induction keys with
  | nil => exact absurd rfl hne
  | cons key keys ih =>
    obtain ⟨hkey, hk⟩ := List.forall_mem_cons.1 hk
    cases keys with
    | nil => rw [Path.join_singleton, Path.ancestors_of_isKey hkey, Path.ancestors_of_isKey (isKey_phraseOf hkey)]
    | cons key' keys =>
      rw [Path.join_cons key (List.cons_ne_nil _ _), phraseOf_under, Path.ancestors_under hkey,
        Path.ancestors_under hkey, ih (List.cons_ne_nil _ _) hk]

end Plural

/-! ## Catalogs -/

namespace Catalog

variable {options : Options} {tree : Table} {c : Catalog}

/-- A tree with a catalog is a phrase tree. -/
theorem fits_of_ofTable (h : (ofTable options tree).outcome = .ok c) : Table.fits options.maxDepth tree = true :=
  (Table.leaves_eq_ok_iff.1 (ofTable_eq_ok h).1).1.2

/-- The entries of a catalog have the paths of the leaves of the tree. -/
theorem map_path_entries (h : (ofTable options tree).outcome = .ok c) : c.entries.map Entry.path = tree.paths := by
  rw [(Table.leaves_eq_ok_iff.1 (ofTable_eq_ok h).1).2, List.map_map]
  rfl

theorem scopes_eq (h : (ofTable options tree).outcome = .ok c) : c.scopes = Path.scopes tree.paths := by
  rw [scopes_of_ofTable h, map_path_entries h]

/-- The keys of a catalog are the phrases of its leaves, each once. -/
theorem keys_eq (h : (ofTable options tree).outcome = .ok c) : c.keys = (tree.paths.map Plural.phraseOf).eraseDups := by
  rw [(ofTable_eq_ok h).2.2.1, Plural.Grouping.keys_collect, ← map_path_entries h, List.map_map]
  rfl

/-- The path of a leaf is made of the keys of a row. -/
theorem exists_row_of_mem_paths (h : (ofTable options tree).outcome = .ok c) {path : String} (hp : path ∈ tree.paths) :
    ∃ row ∈ Table.rows tree, path = Path.join row.1 ∧ row.1 ≠ [] ∧ ∀ key ∈ row.1, Path.isKey key = true := by
  obtain ⟨row, hrow, rfl⟩ := List.mem_map.1 hp
  exact ⟨row, hrow, rfl, Table.isKey_of_mem_rows tree (fits_of_ofTable h) row hrow⟩

/-- **The scopes of a catalog are those of its keys.** -/
theorem scopes_eq_scopes_keys (h : (ofTable options tree).outcome = .ok c) : c.scopes = Path.scopes c.keys := by
  rw [scopes_eq h, keys_eq h, Path.scopes, Path.scopes, eraseDups_flatMap_eraseDups, List.flatMap_map]
  refine congrArg _ (List.flatMap_congr fun path hp => ?_)
  obtain ⟨row, -, rfl, hne, hkeys⟩ := exists_row_of_mem_paths h hp
  exact (Plural.ancestors_phraseOf hne hkeys).symm

/-- A scope has some of the keys that lead to a leaf. -/
theorem exists_row_of_mem_scopes (h : (ofTable options tree).outcome = .ok c) {scope : String} (hs : scope ∈ c.scopes) :
    ∃ before more leaf, (before ++ more, leaf) ∈ Table.rows tree ∧ before ≠ [] ∧ more ≠ [] ∧ scope = Path.join before ∧
      ∀ key ∈ before ++ more, Path.isKey key = true := by
  rw [scopes_eq h] at hs
  obtain ⟨path, hp, hs⟩ := List.mem_flatMap.1 (List.mem_eraseDups.1 hs)
  obtain ⟨⟨keys, leaf⟩, hrow, rfl, hne, hkeys⟩ := exists_row_of_mem_paths h hp
  obtain ⟨before, more, rfl, hb, hm, rfl⟩ := Path.exists_of_mem_ancestors hne hkeys hs
  exact ⟨before, more, leaf, hrow, hb, hm, rfl, hkeys⟩

/-- A scope that is a phrase is one of variants, since no leaf lies on the way to another one. -/
theorem isPlural_of_mem_scopes (ht : Table.isProper tree = true) (h : (ofTable options tree).outcome = .ok c)
    {scope : String} (hs : scope ∈ c.scopes) (hk : scope ∈ c.keys) : c.isPlural scope none = true := by
  obtain ⟨hl, -, hkeys, hfam, -⟩ := ofTable_eq_ok h
  have hn := Table.nodup_paths_leaves ht hl
  by_contra hplural
  -- the phrase is a leaf with its own path
  have hnone : Plural.variantsOf scope c.entries = [] := by
    by_contra hsome
    refine hplural ?_
    rw [isPlural, hfam, Path.resolve, Ordered.has, Plural.Grouping.get?_families_collect hn, if_neg hsome]
    rfl
  rw [hkeys, Plural.Grouping.keys_collect, List.mem_eraseDups] at hk
  obtain ⟨entry, he, hphrase⟩ := List.mem_map.1 hk
  have hleaf : entry ∈ Plural.leavesOf scope c.entries := List.mem_filter.2 ⟨he, by simpa using hphrase⟩
  obtain ⟨hpath, -⟩ := Plural.path_of_mem_leavesOf hnone hleaf
  have hhere := (Table.mem_leaves_iff ht hl).1 he
  -- the other leaf lies behind it
  obtain ⟨before, more, leaf, hrow, hb, hm, rfl, hall⟩ := exists_row_of_mem_scopes h hs
  have hthere := (Table.mem_rows_iff tree ht (fits_of_ofTable h)).1 hrow
  rw [hpath, Path.segments_join hb fun key hkey => hall key (List.mem_append_left more hkey)] at hhere
  cases (Value.leafAt?_append hm hhere).symm.trans hthere

/-! ### The keys in a scope -/

variable {scope : Option String}

/-- A key is in a scope exactly if it leads from there to a phrase. -/
theorem mem_keysIn_iff (h : (ofTable options tree).outcome = .ok c) {key : String} :
    key ∈ c.keysIn scope ↔ key ≠ "" ∧ Path.resolve key scope ∈ c.keys := by
  rw [keysIn, List.mem_filterMap]
  constructor
  · rintro ⟨path, hp, hrel⟩
    obtain ⟨hkey, rfl⟩ := (Path.relative?_eq_some_iff (ne_empty_of_mem_keys h path hp)).1 hrel
    exact ⟨hkey, hp⟩
  · rintro ⟨hkey, hp⟩
    exact ⟨_, hp, (Path.relative?_eq_some_iff (ne_empty_of_mem_keys h _ hp)).2 ⟨hkey, rfl⟩⟩

/-- The keys in a scope are in the order of the phrases that they lead to. -/
theorem map_resolve_keysIn (h : (ofTable options tree).outcome = .ok c) :
    (c.keysIn scope).map (Path.resolve · scope) = c.keys.filter fun key => (Path.relative? key scope).isSome := by
  rw [keysIn, List.map_filterMap, ← List.filterMap_eq_filter]
  refine List.filterMap_congr fun path hp => ?_
  cases hrel : Path.relative? path scope with
  | none => simp [Option.guard, hrel]
  | some key =>
    have hpath := ((Path.relative?_eq_some_iff (ne_empty_of_mem_keys h path hp)).1 hrel).2
    simp [Option.guard, hrel, ← hpath]

/-- There is a contract for each key in a scope. -/
theorem exists_contract_of_mem_keysIn (h : (ofTable options tree).outcome = .ok c) {key : String}
    (hk : key ∈ c.keysIn scope) : ∃ contract, c.contract key scope = .ok contract := by
  obtain ⟨-, -, hkeys, -, hcon⟩ := ofTable_eq_ok h
  have hpath := ((mem_keysIn_iff h).1 hk).2
  rw [hkeys] at hpath
  obtain ⟨contract, hget, -⟩ := Contract.exists_get?_of_ofGrouping hcon hpath
  exact ⟨contract, by rw [Catalog.contract, hget]⟩

/-- There is a key in each scope of a catalog. -/
theorem keysIn_ne_nil (h : (ofTable options tree).outcome = .ok c) {scope : String} (hs : scope ∈ c.scopes) :
    c.keysIn (some scope) ≠ [] := by
  obtain ⟨before, more, leaf, hrow, hb, hm, rfl, hall⟩ := exists_row_of_mem_scopes h hs
  have hbefore : Path.join before ≠ "" := Path.join_ne_empty hb fun key hk => hall key (List.mem_append_left more hk)
  have hmore : Path.join more ≠ "" := Path.join_ne_empty hm fun key hk => hall key (List.mem_append_right before hk)
  have hkey : Plural.phraseOf (Path.join more) ∈ c.keysIn (some (Path.join before)) := by
    refine (mem_keysIn_iff h).2 ⟨Plural.phraseOf_ne_empty hmore, ?_⟩
    rw [Path.resolve_some hbefore, ← Plural.phraseOf_under, ← Path.join_append hb hm, keys_eq h, List.mem_eraseDups]
    exact List.mem_map_of_mem (List.mem_map_of_mem hrow)
  exact List.ne_nil_of_mem hkey

/-- **Scopes and the keys in them are exact.** In a catalog of a tree without a key twice, the scopes are the paths of
the tables that have a leaf, depth first in the order of the items; they are those of the keys, and no scope is a phrase
other than one with variants. The keys in a scope, or in none, or in what is no scope, are those that lead from there to
a phrase, each once and in the order of the phrases, and each has a contract. There is one in every scope. -/
theorem scopes_and_keys_exact (ht : Table.isProper tree = true) (h : (ofTable options tree).outcome = .ok c) :
    (c.scopes.Nodup ∧ c.scopes = Path.scopes c.keys ∧
      c.scopes = ((Table.tables tree).filter fun t => Table.holdsLeaf t.2).map (fun t => Path.join t.1) ∧
      ∀ scope ∈ c.scopes, scope ∈ c.keys → c.isPlural scope none = true) ∧
    (∀ scope : Option String, (c.keysIn scope).Nodup ∧
      ((c.keysIn scope).map (Path.resolve · scope)).Sublist c.keys ∧
      (∀ key, key ∈ c.keysIn scope ↔ key ≠ "" ∧ Path.resolve key scope ∈ c.keys) ∧
      ∀ key ∈ c.keysIn scope, ∃ contract, c.contract key scope = .ok contract) ∧
    ∀ scope ∈ c.scopes, c.keysIn (some scope) ≠ [] := by
  refine ⟨⟨?_, scopes_eq_scopes_keys h, ?_, fun scope hs hk => isPlural_of_mem_scopes ht h hs hk⟩, fun scope => ?_,
    fun scope hs => keysIn_ne_nil h hs⟩
  · rw [scopes_eq h]
    exact (firstSeen_eraseDups _).nodup
  · rw [scopes_eq h, Table.scopes_paths tree ht (fits_of_ofTable h)]
    rfl
  · have hsub : ((c.keysIn scope).map (Path.resolve · scope)).Sublist c.keys := by
      rw [map_resolve_keysIn h]
      exact List.filter_sublist
    have hnodup : c.keys.Nodup := by
      rw [keys_eq h]
      exact (firstSeen_eraseDups _).nodup
    exact ⟨List.Nodup.of_map _ (hnodup.sublist hsub), hsub, fun key => mem_keysIn_iff h,
      fun key hk => exists_contract_of_mem_keysIn h hk⟩

/-- A table without a leaf, one in another one that has no leaf of its own, and a scope that is also a phrase with
variants, of which one lies in a scope that is written like a variant. -/
theorem scopes_and_keys_exact_cats :
    let tree : Table := [(.text "cat", .table [(.text "toys", .table [(.text "ball#one", .text "ball")]),
        (.text "none", .table [])]),
      (.text "cat#one", .text "cat"), (.text "x#one", .table [(.text "#one", .text "odd")])]
    Table.isProper tree = true ∧ ∃ c, (ofTable {} tree).outcome = .ok c ∧
      c.keys = ["cat.toys.ball", "cat", "x#one.#one"] ∧ c.scopes = ["cat", "cat.toys", "x#one"] ∧
      (Table.tables tree).map (fun t => Path.join t.1) = ["cat", "cat.toys", "cat.none", "x#one"] ∧
      c.isPlural "cat" none = true ∧ c.keysIn (some "cat") = ["toys.ball"] ∧ c.keysIn (some "cat.none") = [] ∧
      c.keysIn (some "x#one") ≠ [] := by
  intro tree
  have ht : Table.isProper tree = true := by decide +kernel
  have hrun : (ofTable {} tree).outcome.toOption.map (fun c =>
      (c.keys, c.scopes, c.keysIn (some "cat"), c.keysIn (some "cat.none"))) =
      some (["cat.toys.ball", "cat", "x#one.#one"], ["cat", "cat.toys", "x#one"], ["toys.ball"], []) := by
    decide +kernel
  obtain ⟨c, hc, hparts⟩ := Option.map_eq_some_iff.1 hrun
  have hc := toOption_eq_some_iff.1 hc
  simp only [Prod.mk.injEq] at hparts
  obtain ⟨hkeys, hscopes, hcat, hnone⟩ := hparts
  obtain ⟨⟨-, -, -, hplural⟩, -, hne⟩ := scopes_and_keys_exact ht hc
  exact ⟨ht, c, hc, hkeys, hscopes, by decide +kernel, hplural "cat" (by simp [hscopes]) (by simp [hkeys]), hcat, hnone,
    hne "x#one" (by simp [hscopes])⟩

end Catalog

end Phrasebook
