import Phrasebook.Proofs.Refusal
import Phrasebook.Proofs.Tree.Reordered
import Mathlib.Data.List.Perm.Basic
import Mathlib.Data.Option.Basic

/-!
# Catalogs of trees in another order

A tree has its leaves in the order of its items. What is made of them depends on this order only in the order of what
is made.

* `Plural.Category.hintsOf_eq_of_perm`, `Plural.Grouping.get?_families_of_perm`, `Contract.sameUpToOrder_of_ofKey`: the
  stages on the way to a catalog, for the same leaves in another order.
* `Contract.SameUpToOrder` and `Catalog.SameUpToOrder`: contracts and catalogs that differ in order alone.
* `Catalog.ofTable_reordered`: of two trees that are equal up to order both have a catalog or neither has one, and the
  catalogs differ in order alone.
-/

namespace Phrasebook

/-! ## Lists without an order -/

/-- The members of a list are those of any list with the same members in another order. -/
theorem perm_eraseDups {α : Type} [DecidableEq α] {xs ys : List α} (h : xs.Perm ys) :
    xs.eraseDups.Perm ys.eraseDups := by
  refine (List.perm_ext_iff_of_nodup (firstSeen_eraseDups xs).nodup (firstSeen_eraseDups ys).nodup).2 fun a => ?_
  rw [List.mem_eraseDups, List.mem_eraseDups, h.mem_iff]

/-- Numbers in another order have the same ascending order. -/
theorem mergeSort_eq_of_perm {xs ys : List Nat} (h : xs.Perm ys) : xs.mergeSort = ys.mergeSort := by
  have hsorted : ∀ zs : List Nat, zs.mergeSort.Pairwise fun a b => decide (a ≤ b) = true :=
    List.pairwise_mergeSort (by simpa using fun a b c => Nat.le_trans) (by simpa using Nat.le_total)
  refine List.Perm.eq_of_pairwise ?_ (hsorted xs) (hsorted ys) ?_
  · intro a b _ _ hab hba
    exact Nat.le_antisymm (of_decide_eq_true hab) (of_decide_eq_true hba)
  · exact (List.mergeSort_perm xs _).trans (h.trans (List.mergeSort_perm ys _).symm)

theorem Path.scopes_perm {paths paths' : List String} (h : paths.Perm paths') :
    (scopes paths).Perm (scopes paths') :=
  perm_eraseDups (h.flatMap_right ancestors)

/-! ## Groupings of leaves in another order -/

namespace Plural

/-- Typical counts come in ascending order in any case. -/
theorem Category.hintsOf_eq_of_perm {categories categories' : List Category} (h : categories.Perm categories') :
    hintsOf categories = hintsOf categories' :=
  mergeSort_eq_of_perm (perm_eraseDups (h.flatMap_right hints))

variable {entries entries' : List Entry}

/-- The same keys clash. -/
theorem clashes_iff_of_perm (h : entries.Perm entries') (key : String) :
    Clashes entries key ↔ Clashes entries' key := by
  simp only [Clashes, h.mem_iff]

theorem byPhrase_perm (h : entries.Perm entries') : (byPhrase entries).Perm (byPhrase entries') :=
  (perm_byPhrase entries).trans (h.trans (perm_byPhrase entries').symm)

namespace Grouping

theorem keys_perm (h : entries.Perm entries') : (collect entries).keys.Perm (collect entries').keys := by
  rw [keys_collect, keys_collect]
  exact perm_eraseDups (h.map _)

theorem findings_perm (h : entries.Perm entries') : (findings entries).Perm (findings entries') := h.flatMap_right _

/-- A family has the same variants. -/
theorem get?_families_of_perm (h : entries.Perm entries') (hn : (entries.map Entry.path).Nodup) (base : String) :
    ((collect entries).families.get? base = none ∧ (collect entries').families.get? base = none) ∨
      ∃ variants variants', (collect entries).families.get? base = some variants ∧
        (collect entries').families.get? base = some variants' ∧ variants.Perm variants' := by
  have hvariants : (variantsOf base entries).Perm (variantsOf base entries') := h.filterMap _
  have hnil : variantsOf base entries = [] ↔ variantsOf base entries' = [] := by
    rw [← List.length_eq_zero_iff, ← List.length_eq_zero_iff, hvariants.length_eq]
  rw [get?_families_collect hn, get?_families_collect ((h.map Entry.path).nodup_iff.1 hn)]
  by_cases hv : variantsOf base entries = []
  · exact Or.inl ⟨if_pos hv, if_pos (hnil.1 hv)⟩
  · exact Or.inr ⟨_, _, if_neg hv, if_neg (mt hnil.2 hv), hvariants⟩

end Grouping

end Plural

/-! ## Contracts -/

namespace Contract

/-- Two contracts differ in order alone. That of an ordinary phrase is the same, its parameters in their order; those of
a plural phrase have the same hints, and the same other parameters and categories in some order. -/
inductive SameUpToOrder : Contract → Contract → Prop
  | ordinary (key : String) (params : List String) : SameUpToOrder { key, params } { key, params }
  | plural {params params' suffixes suffixes' : List String} (key : String) (hints : List Int) :
      params.Perm params' → suffixes.Perm suffixes' →
      SameUpToOrder { key, params, count := some { suffixes, hints } }
        { key, params := params', count := some { suffixes := suffixes', hints } }

/-- Nothing is missing for one of two such contracts exactly if nothing is for the other one. -/
theorem SameUpToOrder.missing_eq_nil_iff {c c' : Contract} (h : c.SameUpToOrder c') (values : Table) :
    c.missing values = [] ↔ c'.missing values = [] := by
  cases h with
  | ordinary => rfl
  | plural key hints hparams _ =>
    rw [Contract.missing_eq_nil_iff, Contract.missing_eq_nil_iff]
    simp [fields, isPlural, hparams.mem_iff]

theorem mergeParams_perm {lists lists' : List (List String)} (h : lists.Perm lists') :
    (mergeParams lists).Perm (mergeParams lists') :=
  perm_eraseDups (h.flatten.filter _)

variable {limit : Int} {entries entries' : List Entry}

/-- The contracts of a family in two orders. -/
theorem sameUpToOrder_of_ofFamily {base : String} {variants variants' : Plural.Variants} (h : variants.Perm variants')
    {contract contract' : Contract} (hc : (ofFamily limit base variants).outcome = .ok contract)
    (hc' : (ofFamily limit base variants').outcome = .ok contract') : contract.SameUpToOrder contract' := by
  obtain ⟨rfl, -⟩ := ofFamily_eq_ok hc
  obtain ⟨rfl, -⟩ := ofFamily_eq_ok hc'
  rw [Plural.Category.hintsOf_eq_of_perm (h.map (·.1))]
  exact .plural base _ (mergeParams_perm ((h.map _).map _)) (h.map _)

/-- **The contracts of a phrase for the same leaves in two orders** differ in order alone. -/
theorem sameUpToOrder_of_ofKey (h : entries.Perm entries') (hn : (entries.map Entry.path).Nodup)
    (hc : (Plural.Grouping.collect entries).clash? = none) (hc' : (Plural.Grouping.collect entries').clash? = none)
    {key : String} (hk : key ∈ (Plural.Grouping.collect entries).keys) {contract contract' : Contract}
    (hcon : (ofKey limit (Plural.Grouping.collect entries) key).outcome = .ok contract)
    (hcon' : (ofKey limit (Plural.Grouping.collect entries') key).outcome = .ok contract') :
    contract.SameUpToOrder contract' := by
  have hn' := (h.map Entry.path).nodup_iff.1 hn
  have hk' := (Plural.Grouping.keys_perm h).mem_iff.1 hk
  unfold ofKey at hcon hcon'
  rcases Plural.Grouping.get?_families_of_perm h hn key with ⟨hf, hf'⟩ | ⟨variants, variants', hf, hf', hv⟩
  · rcases Plural.leaves_of_phrase hn hc hk with ⟨_, hsome, -⟩ | ⟨value, -, ho, hl⟩
    · cases hf.symm.trans hsome
    rcases Plural.leaves_of_phrase hn' hc' hk' with ⟨_, hsome, -⟩ | ⟨value', -, ho', hl'⟩
    · cases hf'.symm.trans hsome
    -- the leaf of an ordinary phrase is the only one of its phrase
    have hleaf : [(⟨key, value⟩ : Entry)] = [⟨key, value'⟩] := by
      rw [← List.singleton_perm, ← hl, ← hl']
      exact h.filter _
    cases hleaf
    simp only [hf, ho] at hcon
    simp only [hf', ho'] at hcon'
    cases hcon.symm.trans hcon'
    simp only [Option.getD_some, Audit.outcome_bind, bind_eq_ok_iff] at hcon
    obtain ⟨t, -, hcon⟩ := hcon
    cases hcon
    exact .ordinary key t.params
  · simp only [hf] at hcon
    simp only [hf'] at hcon'
    exact sameUpToOrder_of_ofFamily hv hcon hcon'

/-- The contracts of the same leaves in two orders differ in order alone, and for the same keys. -/
theorem get?_contracts_of_perm (h : entries.Perm entries') (hn : (entries.map Entry.path).Nodup)
    (hc : (Plural.Grouping.collect entries).clash? = none) (hc' : (Plural.Grouping.collect entries').clash? = none)
    {contracts contracts' : Ordered String Contract}
    (hcon : (ofGrouping limit (Plural.Grouping.collect entries)).outcome = .ok contracts)
    (hcon' : (ofGrouping limit (Plural.Grouping.collect entries')).outcome = .ok contracts') (key : String) :
    Option.Rel SameUpToOrder (contracts.get? key) (contracts'.get? key) := by
  have hkeys := (Plural.Grouping.keys_perm h).mem_iff (a := key)
  by_cases hk : key ∈ (Plural.Grouping.collect entries).keys
  · obtain ⟨contract, hg, hmade⟩ := exists_get?_of_ofGrouping hcon hk
    obtain ⟨contract', hg', hmade'⟩ := exists_get?_of_ofGrouping hcon' (hkeys.1 hk)
    rw [hg, hg']
    exact .some (sameUpToOrder_of_ofKey h hn hc hc' hk hmade hmade')
  · rw [Ordered.get?_eq_none_iff.2 (keys_of_ofGrouping hcon ▸ hk),
      Ordered.get?_eq_none_iff.2 (keys_of_ofGrouping hcon' ▸ mt hkeys.2 hk)]
    exact .none

end Contract

/-! ## Catalogs -/

theorem Table.entries_perm {limit : Int} {tree tree' : Table} (h : (Value.table tree).Reordered (.table tree'))
    (hw : tree.WellFormed limit) : tree.entries.Perm tree'.entries :=
  (rows_perm_of_reordered h hw).map _

theorem Table.leaves_perm {limit : Int} {tree tree' : Table} (h : (Value.table tree).Reordered (.table tree'))
    {entries entries' : List Entry} (hl : tree.leaves limit = .ok entries) (hl' : tree'.leaves limit = .ok entries') :
    entries.Perm entries' := by
  have hw := wellFormed_iff_exists_leaves.2 ⟨entries, hl⟩
  obtain ⟨-, rfl⟩ := leaves_eq_ok_iff.1 hl
  obtain ⟨-, rfl⟩ := leaves_eq_ok_iff.1 hl'
  exact entries_perm h hw

namespace Catalog

variable {options : Options} {tree tree' : Table}

/-- The stages behind the first one look at the leaves without regard to their order. -/
theorem Accepted.of_perm (h : Accepted options tree) (hw : tree'.WellFormed options.maxDepth)
    (hp : tree.entries.Perm tree'.entries) : Accepted options tree' where
  wellFormed := hw
  no_clash := by simpa only [Plural.clashes_iff_of_perm hp] using h.no_clash
  short entry he := h.short entry (hp.mem_iff.2 he)

/-- A tree passes all stages exactly if a reordered one does. -/
theorem accepted_iff_of_reordered (h : (Value.table tree).Reordered (.table tree')) :
    Accepted options tree ↔ Accepted options tree' := by
  have hw : tree.WellFormed options.maxDepth ↔ tree'.WellFormed options.maxDepth :=
    Table.wellFormed_iff_of_reordered h
  constructor
  · intro ha
    exact ha.of_perm (hw.1 ha.wellFormed) (Table.entries_perm h ha.wellFormed)
  · intro ha
    have hwt := hw.2 ha.wellFormed
    exact ha.of_perm hwt (Table.entries_perm h hwt).symm

/-- What is found on the way to a catalog is what is odd about the paths of the leaves, and then about the leaves in the
order of inspection. -/
theorem findings_of_ofTable (ht : Table.isProper tree = true) {catalog : Catalog}
    (h : (ofTable options tree).outcome = .ok catalog) :
    catalog.findings = Plural.Grouping.findings catalog.entries ++
      (Plural.byPhrase catalog.entries).flatMap Entry.findings := by
  obtain ⟨hl, hc, -, -, hcon⟩ := ofTable_eq_ok h
  have hn := Table.nodup_paths_leaves ht hl
  rw [← Contract.findings_ofGrouping hn hc hcon]
  have hleaves : (Audit.ofExcept (tree.leaves options.maxDepth)).outcome = .ok catalog.entries := hl
  have hgroup : (Plural.Grouping.ofEntries catalog.entries).outcome =
      .ok (Plural.Grouping.collect catalog.entries) := by
    rw [Plural.Grouping.outcome_ofEntries, hc]
  have hfindings : catalog.findings = (ofTable options tree).findings := by
    obtain ⟨made, -, rfl⟩ := map_eq_ok_iff.1 h
    rfl
  rw [hfindings]
  unfold ofTable
  dsimp only
  rw [Audit.findings_bind_of_ok hleaves, Audit.findings_bind_of_ok hgroup, Audit.findings_bind_of_ok hcon]
  show [] ++ (_ ++ (_ ++ [])) = _
  rw [List.nil_append, List.append_nil]
  rfl

/-- Two catalogs differ in order alone. -/
structure SameUpToOrder (c c' : Catalog) : Prop where
  entries : c.entries.Perm c'.entries
  keys : c.keys.Perm c'.keys
  scopes : c.scopes.Perm c'.scopes
  families : ∀ key, Option.Rel List.Perm (c.families.get? key) (c'.families.get? key)
  contracts : ∀ key, Option.Rel Contract.SameUpToOrder (c.contracts.get? key) (c'.contracts.get? key)
  findings : c.findings.Perm c'.findings

theorem contract_eq_ok_iff {c : Catalog} {key : String} {scope : Option String} {contract : Contract} :
    c.contract key scope = .ok contract ↔ c.contracts.get? (Path.resolve key scope) = some contract := by
  unfold Catalog.contract
  dsimp only
  cases c.contracts.get? (Path.resolve key scope) <;> simp

/-- A call supplies what a phrase of one of two such catalogs asks for exactly if it does so for the other one. -/
theorem SameUpToOrder.missing_eq_nil_iff {c c' : Catalog} (h : c.SameUpToOrder c') (key : String)
    (scope : Option String) (values : Table) :
    (∃ contract, c.contract key scope = .ok contract ∧ contract.missing values = []) ↔
      ∃ contract, c'.contract key scope = .ok contract ∧ contract.missing values = [] := by
  have hrel := h.contracts (Path.resolve key scope)
  simp only [contract_eq_ok_iff]
  revert hrel
  generalize c.contracts.get? (Path.resolve key scope) = found
  generalize c'.contracts.get? (Path.resolve key scope) = found'
  rintro (hsame | _)
  · simpa using hsame.missing_eq_nil_iff values
  · exact Iff.rfl

/-- The catalogs of a tree and of a reordered one. -/
theorem sameUpToOrder_of_reordered (ht : Table.isProper tree = true) (ht' : Table.isProper tree' = true)
    (h : (Value.table tree).Reordered (.table tree')) {c c' : Catalog} (hc : (ofTable options tree).outcome = .ok c)
    (hc' : (ofTable options tree').outcome = .ok c') : c.SameUpToOrder c' := by
  obtain ⟨hl, hclash, hkeys, hfamilies, hcontracts⟩ := ofTable_eq_ok hc
  obtain ⟨hl', hclash', hkeys', hfamilies', hcontracts'⟩ := ofTable_eq_ok hc'
  have hn := Table.nodup_paths_leaves ht hl
  have hp : c.entries.Perm c'.entries := Table.leaves_perm h hl hl'
  refine ⟨hp, ?_, ?_, fun key => ?_, fun key => ?_, ?_⟩
  · rw [hkeys, hkeys']
    exact Plural.Grouping.keys_perm hp
  · rw [scopes_of_ofTable hc, scopes_of_ofTable hc']
    exact Path.scopes_perm (hp.map Entry.path)
  · rw [hfamilies, hfamilies']
    rcases Plural.Grouping.get?_families_of_perm hp hn key with ⟨hf, hf'⟩ | ⟨variants, variants', hf, hf', hv⟩
    · rw [hf, hf']
      exact .none
    · rw [hf, hf']
      exact .some hv
  · exact Contract.get?_contracts_of_perm hp hn hclash hclash' hcontracts hcontracts' key
  · rw [findings_of_ofTable ht hc, findings_of_ofTable ht' hc']
    exact (Plural.Grouping.findings_perm hp).append ((Plural.byPhrase_perm hp).flatMap_right _)

/-- **The order of a tree affects nothing but order.** Of two trees that are equal up to the order of items both have a
catalog or neither has one. The catalogs have the same leaves, keys, scopes, families and findings in some order;
contracts of ordinary phrases are the same, and those of plural phrases have the same hints, and the same categories and
parameters in some order. So nothing is missing for one exactly if nothing is for the other. -/
theorem ofTable_reordered (options : Options) (ht : Table.isProper tree = true) (ht' : Table.isProper tree' = true)
    (h : (Value.table tree).Reordered (.table tree')) :
    ((∃ c, (ofTable options tree).outcome = .ok c) ↔ ∃ c', (ofTable options tree').outcome = .ok c') ∧
      ∀ c c', (ofTable options tree).outcome = .ok c → (ofTable options tree').outcome = .ok c' →
        c.SameUpToOrder c' ∧ ∀ key scope values,
          (∃ contract, c.contract key scope = .ok contract ∧ contract.missing values = []) ↔
            ∃ contract, c'.contract key scope = .ok contract ∧ contract.missing values = [] := by
  refine ⟨?_, fun c c' hc hc' => ?_⟩
  · rw [exists_catalog_iff ht, exists_catalog_iff ht', accepted_iff_of_reordered h]
  · have hsame := sameUpToOrder_of_reordered ht ht' h hc hc'
    exact ⟨hsame, hsame.missing_eq_nil_iff⟩

/-- A plural phrase of which the variants change places, around a table of which the items do. -/
theorem ofTable_reordered_cats :
    let shut : Value × Value := (.text "shut", .text "{} {b} {a} {b}")
    let opened : Value × Value := (.text "open", .text "")
    let one : Value × Value := (.text "cat#one", .text "{count} {m}")
    let two : Value × Value := (.text "cat#two", .text "{n} {m}")
    let tree : Table := [one, (.text "menu", .table [shut, opened]), two]
    let tree' : Table := [(.text "menu", .table [opened, shut]), two, one]
    Table.isProper tree = true ∧ Table.isProper tree' = true ∧ (Value.table tree).Reordered (.table tree') ∧
      ∃ c c', (ofTable {} tree).outcome = .ok c ∧ (ofTable {} tree').outcome = .ok c' ∧ c.SameUpToOrder c' ∧
        c.keys = ["cat", "menu.shut", "menu.open"] ∧ c'.keys = ["menu.open", "menu.shut", "cat"] ∧
        (c.contracts.get? "cat").map Contract.fields = some ["count", "m", "n"] ∧
        (c'.contracts.get? "cat").map Contract.fields = some ["count", "n", "m"] := by
  intro shut opened one two tree tree'
  have ht : Table.isProper tree = true := by decide +kernel
  have ht' : Table.isProper tree' = true := by decide +kernel
  have hmenu : (Value.table [shut, opened]).Reordered (.table [opened, shut]) :=
    Value.reordered_of_perm (.swap opened shut []) []
  have hbelow : Value.ReorderedBelow tree [one, (.text "menu", .table [opened, shut]), two] :=
    .cons ⟨rfl, .refl _⟩ (.cons ⟨rfl, hmenu⟩ (.cons ⟨rfl, .refl _⟩ .nil))
  have h : (Value.table tree).Reordered (.table tree') :=
    Value.reordered_table_iff.2 ⟨_, tree', hbelow, (List.perm_append_singleton one _).symm, rfl⟩
  have hrun : ((ofTable {} tree).outcome.toOption.map fun c =>
      (c.keys, (c.contracts.get? "cat").map Contract.fields)) =
      some (["cat", "menu.shut", "menu.open"], some ["count", "m", "n"]) := by decide +kernel
  have hrun' : ((ofTable {} tree').outcome.toOption.map fun c =>
      (c.keys, (c.contracts.get? "cat").map Contract.fields)) =
      some (["menu.open", "menu.shut", "cat"], some ["count", "n", "m"]) := by decide +kernel
  obtain ⟨c, hc, hparts⟩ := Option.map_eq_some_iff.1 hrun
  obtain ⟨c', hc', hparts'⟩ := Option.map_eq_some_iff.1 hrun'
  obtain ⟨hkeys, hfields⟩ := Prod.mk.inj hparts
  obtain ⟨hkeys', hfields'⟩ := Prod.mk.inj hparts'
  have hc := toOption_eq_some_iff.1 hc
  have hc' := toOption_eq_some_iff.1 hc'
  obtain ⟨hsame, -⟩ := (ofTable_reordered {} ht ht' h).2 c c' hc hc'
  exact ⟨ht, ht', h, c, c', hc, hc', hsame, hkeys, hkeys', hfields, hfields'⟩

end Catalog

end Phrasebook
