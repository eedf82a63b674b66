import Phrasebook.Catalog
import Phrasebook.Proofs.Plural.Grouping
import Phrasebook.Proofs.Template.Filling
import Phrasebook.Proofs.Tree.Paths

/-!
# What a contract asks for and what it promises

* `Contract.Exact`: a contract asks for the names in the leaves of its phrase, and for the count of a plural phrase.
* `Contract.Serves`: a call that supplies what a contract asks for has a value for every name in those leaves, so that
  none of their placeholders is left.
* `Catalog.exact_and_serves`: the contracts of a phrase tree are exact, and a call from which they miss nothing is
  served.
-/

namespace Phrasebook

/-- A map whose items belong to some keys has an item for each of them. -/
theorem Ordered.exists_get?_of_forall₂ {κ α : Type} [DecidableEq κ] {R : κ → α → Prop} {ks : List κ}
    {items : Ordered κ α} (h : List.Forall₂ (fun k item => item.1 = k ∧ R k item.2) ks items) {key : κ}
    (hk : key ∈ ks) : ∃ a, items.get? key = some a ∧ R key a := by
  induction h with
  | nil => cases hk
  | @cons k item _ _ hi _ ih =>
    obtain ⟨rfl, hr⟩ := hi
    by_cases he : item.1 = key
    · refine ⟨item.2, ?_, he ▸ hr⟩
      rw [get?, if_pos he]
    · rw [get?, if_neg he]
      exact ih (List.mem_of_ne_of_mem (Ne.symm he) hk)

/-- The names of the parameters of a leaf. -/
def Entry.params (entry : Entry) : List String := Template.paramsOf entry.value

namespace Contract

/-- A contract asks for what the leaves of its phrase name: those of an ordinary phrase as its text has them, those of a
plural phrase each once, in the order in which they first come in the variants, and behind the count. -/
structure Exact (contract : Contract) (leaves : List Entry) : Prop where
  mem_fields_iff : ∀ name, name ∈ contract.fields ↔
    (∃ entry ∈ leaves, name ∈ entry.params) ∨ contract.isPlural = true ∧ name = countName
  ordinary : contract.isPlural = false →
    ∃ value, leaves = [⟨contract.key, value⟩] ∧ contract.fields = Template.paramsOf value
  plural : contract.isPlural = true →
    (∀ entry ∈ leaves, ∃ category, entry.path = Plural.variantPath contract.key category) ∧
      ∃ names, contract.fields = countName :: names ∧
        FirstSeen names ((leaves.flatMap Entry.params).filter (· ≠ countName))

/-- What a call can rely on that supplies what a contract asks for. -/
structure Serves (contract : Contract) (leaves : List Entry) (values : Table) : Prop where
  supplied : ∀ entry ∈ leaves, ∀ name ∈ entry.params, values.contains (.text name) = true
  counted : contract.isPlural = true → ∃ count, values.get? (.text countName) = some count ∧ count.isNumber = true
  filled : ∀ entry ∈ leaves, ∀ s text, entry.value = .text s → Template.fill values entry.value = .ok text →
    ∃ selected, Template.Selects values s selected ∧ Template.Filled values selected text.toList

/-! ## What is missing -/

/-- Nothing is missing exactly if every name is supplied, and the count of a plural phrase is a number. -/
theorem missing_eq_nil_iff {contract : Contract} {values : Table} :
    contract.missing values = [] ↔ (∀ name ∈ contract.fields, values.contains (.text name) = true) ∧
      (contract.isPlural = true → ∃ count, values.get? (.text countName) = some count ∧ count.isNumber = true) := by
  have hnames : contract.fields.eraseDups.filter (fun name => !values.contains (.text name)) = [] ↔
      ∀ name ∈ contract.fields, values.contains (.text name) = true := by
    simp [List.filter_eq_nil_iff]
  rw [missing, List.append_eq_nil_iff, hnames]
  refine and_congr_right fun hall => ?_
  cases hp : contract.isPlural with
  | false => cases values.get? (.text countName) <;> simp
  | true =>
    have hcount : values.contains (.text countName) = true := hall _ (by simp [fields, hp])
    obtain ⟨count, hc⟩ := Option.isSome_iff_exists.1 hcount
    simp [hc]

/-- A call from which an exact contract misses nothing is served. -/
theorem Exact.serves {contract : Contract} {leaves : List Entry} {values : Table} (he : contract.Exact leaves)
    (hm : contract.missing values = []) : contract.Serves leaves values := by
  obtain ⟨hall, hcount⟩ := missing_eq_nil_iff.1 hm
  have hsupplied : ∀ entry ∈ leaves, ∀ name ∈ entry.params, values.contains (.text name) = true := by
    intro entry hentry name hname
    exact hall name ((he.mem_fields_iff name).2 (Or.inl ⟨entry, hentry, hname⟩))
  refine ⟨hsupplied, hcount, ?_⟩
  intro entry hentry s text hs ht
  have hparams := hsupplied entry hentry
  rw [Entry.params, hs] at hparams
  rw [hs] at ht
  exact Template.filled_of_fill hparams ht

/-! ## The contract of a phrase -/

theorem outcome_inspect (limit : Int) (path : String) (value : Value) :
    (inspect limit path value).outcome = Template.ofValue path limit value := by
  unfold inspect
  simp only [Audit.outcome_bind, Audit.ofExcept, Audit.report, Audit.outcome_pure]
  cases Template.ofValue path limit value <;> rfl

/-- The contract of an ordinary phrase asks for the names in its text. -/
theorem exact_ordinary (key : String) (value : Value) :
    Exact { key, params := Template.paramsOf value } [⟨key, value⟩] where
  mem_fields_iff name := by simp [fields, isPlural, Entry.params]
  ordinary _ := ⟨value, rfl, rfl⟩
  plural h := by cases h

/-- The contract of a plural phrase asks for the count and the other names in its variants. -/
theorem exact_plural {key : String} {leaves : List Entry} (count : CountField)
    (h : ∀ entry ∈ leaves, ∃ category, entry.path = Plural.variantPath key category) :
    Exact { key, params := mergeParams (leaves.map Entry.params), count := some count } leaves where
  mem_fields_iff name := by
    by_cases hn : name = countName
    · simp [fields, isPlural, hn]
    · simp [fields, isPlural, mergeParams, hn]
  ordinary h := by cases h
  plural _ := by
    refine ⟨h, _, rfl, ?_⟩
    rw [mergeParams, ← List.flatMap_def]
    exact firstSeen_eraseDups _

/-- The contract of a family is made from its categories and the templates of its variants. -/
theorem ofFamily_eq_ok {limit : Int} {base : String} {variants : Plural.Variants} {contract : Contract}
    (h : (ofFamily limit base variants).outcome = .ok contract) :
    contract =
        { key := base, params := mergeParams ((variants.map (Plural.variantLeaf base)).map Entry.params),
          count := some
            { suffixes := variants.map (·.1.name)
              hints := (Plural.Category.hintsOf (variants.map (·.1))).map Int.ofNat } } ∧
      ∀ entry ∈ variants.map (Plural.variantLeaf base), ∃ t,
        Template.ofValue entry.path limit entry.value = .ok t ∧ t.params = entry.params := by
  unfold ofFamily at h
  rw [Audit.outcome_bind, Audit.outcome_mapM, bind_eq_ok_iff] at h
  obtain ⟨templates, ht, h⟩ := h
  have hread : List.Forall₂ (fun entry t => Template.ofValue entry.path limit entry.value = .ok t)
      (variants.map (Plural.variantLeaf base)) templates := by
    rw [List.forall₂_map_left_iff]
    refine (mapM_eq_ok_iff.1 ht).imp fun item t hi => ?_
    rw [outcome_inspect] at hi
    exact hi
  have hparams : List.Forall₂ (· = ·) (templates.map Template.params)
      ((variants.map (Plural.variantLeaf base)).map Entry.params) := by
    rw [List.forall₂_map_left_iff, List.forall₂_map_right_iff]
    exact hread.flip.imp fun t entry he => Template.params_of_ofValue he
  rw [List.forall₂_eq_eq_eq] at hparams
  refine ⟨?_, ?_⟩
  · cases h
    rw [← hparams]
  · intro entry hentry
    obtain ⟨t, -, ht⟩ := exists_of_forall₂ hread hentry
    exact ⟨t, ht, Template.params_of_ofValue ht⟩

/-- The contract of a phrase is exact for its leaves, all of which were read. -/
theorem exact_of_ofKey {limit : Int} {entries : List Entry} (hn : (entries.map Entry.path).Nodup)
    (hc : (Plural.Grouping.collect entries).clash? = none) {key : String}
    (hk : key ∈ (Plural.Grouping.collect entries).keys) {contract : Contract}
    (h : (ofKey limit (Plural.Grouping.collect entries) key).outcome = .ok contract) :
    contract.key = key ∧ contract.isPlural = (Plural.Grouping.collect entries).families.has key ∧
      contract.Exact (Plural.leavesOf key entries) ∧ ∀ entry ∈ Plural.leavesOf key entries, ∃ t,
        Template.ofValue entry.path limit entry.value = .ok t ∧ t.params = entry.params := by
  unfold ofKey at h
  rcases Plural.leaves_of_phrase hn hc hk with ⟨variants, hf, hl⟩ | ⟨value, hf, ho, hl⟩
  · rw [hf] at h
    obtain ⟨rfl, hread⟩ := ofFamily_eq_ok h
    rw [hl, Ordered.has, hf]
    refine ⟨rfl, rfl, exact_plural _ ?_, hread⟩
    intro entry hentry
    obtain ⟨item, -, rfl⟩ := List.mem_map.1 hentry
    exact ⟨item.1, rfl⟩
  · simp only [hf, ho, Option.getD_some, Audit.outcome_bind, outcome_inspect, bind_eq_ok_iff] at h
    obtain ⟨t, ht, h⟩ := h
    cases h
    rw [hl, Ordered.has, hf, Template.params_of_ofValue ht]
    refine ⟨rfl, rfl, exact_ordinary key value, ?_⟩
    intro entry hentry
    rw [List.mem_singleton.1 hentry]
    exact ⟨t, ht, Template.params_of_ofValue ht⟩

/-- The contracts of a grouping are those of its keys, in their order. -/
theorem ofGrouping_eq_ok {limit : Int} {g : Plural.Grouping} {contracts : Ordered String Contract}
    (h : (ofGrouping limit g).outcome = .ok contracts) :
    List.Forall₂ (fun key item => item.1 = key ∧ (ofKey limit g key).outcome = .ok item.2) g.keys contracts := by
  rw [ofGrouping, Audit.outcome_mapM] at h
  refine (mapM_eq_ok_iff.1 h).imp fun key item hi => ?_
  rw [Audit.outcome_bind, bind_eq_ok_iff] at hi
  obtain ⟨contract, hc, hi⟩ := hi
  cases hi
  exact ⟨rfl, hc⟩

/-- There is a contract for each key of a grouping. -/
theorem exists_get?_of_ofGrouping {limit : Int} {g : Plural.Grouping} {contracts : Ordered String Contract}
    (h : (ofGrouping limit g).outcome = .ok contracts) {key : String} (hk : key ∈ g.keys) :
    ∃ contract, contracts.get? key = some contract ∧ (ofKey limit g key).outcome = .ok contract :=
  Ordered.exists_get?_of_forall₂ (R := fun key contract => (ofKey limit g key).outcome = .ok contract)
    (ofGrouping_eq_ok h) hk

/-- There is a contract for no other key. -/
theorem keys_of_ofGrouping {limit : Int} {g : Plural.Grouping} {contracts : Ordered String Contract}
    (h : (ofGrouping limit g).outcome = .ok contracts) : contracts.keys = g.keys := by
  have hkeys : List.Forall₂ (· = ·) contracts.keys g.keys := by
    rw [Ordered.keys, List.forall₂_map_left_iff]
    exact (ofGrouping_eq_ok h).flip.imp fun _ _ hi => hi.1
  exact List.forall₂_eq_eq_eq ▸ hkeys

end Contract

/-! ## The contracts of a phrase tree -/

namespace Catalog

/-- A catalog is made of the leaves of the tree, the phrases they are sorted into, and the contracts of these. -/
theorem ofTable_eq_ok {options : Options} {tree : Table} {catalog : Catalog}
    (h : (ofTable options tree).outcome = .ok catalog) :
    tree.leaves options.maxDepth = .ok catalog.entries ∧
      (Plural.Grouping.collect catalog.entries).clash? = none ∧
      catalog.keys = (Plural.Grouping.collect catalog.entries).keys ∧
      catalog.families = (Plural.Grouping.collect catalog.entries).families ∧
      (Contract.ofGrouping options.maxLength (Plural.Grouping.collect catalog.entries)).outcome =
        .ok catalog.contracts := by
  obtain ⟨made, hmade, rfl⟩ := map_eq_ok_iff.1 h
  simp only [Audit.outcome_bind, Audit.ofExcept, bind_eq_ok_iff, Plural.Grouping.ofEntries] at hmade
  obtain ⟨entries, hl, g, hg, contracts, hcon, hmade⟩ := hmade
  cases hmade
  split at hg
  · cases hg
  · next hc =>
    cases hg
    exact ⟨hl, hc, rfl, rfl, hcon⟩

/-- The scopes of a catalog are those of its leaves. -/
theorem scopes_of_ofTable {options : Options} {tree : Table} {catalog : Catalog}
    (h : (ofTable options tree).outcome = .ok catalog) :
    catalog.scopes = Path.scopes (catalog.entries.map Entry.path) := by
  obtain ⟨made, hmade, rfl⟩ := map_eq_ok_iff.1 h
  simp only [Audit.outcome_bind, Audit.ofExcept, bind_eq_ok_iff] at hmade
  obtain ⟨entries, -, g, -, contracts, -, hmade⟩ := hmade
  cases hmade
  rfl

/-- **Contracts are exact and serve.** -/
theorem exact_and_serves {options : Options} {tree : Table} (ht : Table.isProper tree = true) {catalog : Catalog}
    (h : (ofTable options tree).outcome = .ok catalog) :
    tree.leaves options.maxDepth = .ok catalog.entries ∧
      FirstSeen catalog.keys (catalog.entries.map fun entry => Plural.phraseOf entry.path) ∧
      ∀ key ∈ catalog.keys, ∃ contract, catalog.contract key none = .ok contract ∧ contract.key = key ∧
        contract.isPlural = catalog.isPlural key none ∧
        contract.Exact (Plural.leavesOf key catalog.entries) ∧
        (∀ entry ∈ Plural.leavesOf key catalog.entries, ∃ t,
          Template.ofValue entry.path options.maxLength entry.value = .ok t ∧ t.params = entry.params) ∧
        ∀ values, contract.missing values = [] → contract.Serves (Plural.leavesOf key catalog.entries) values := by
  obtain ⟨hl, hc, hkeys, hfam, hcon⟩ := ofTable_eq_ok h
  have hn := Table.nodup_paths_leaves ht hl
  refine ⟨hl, ?_, ?_⟩
  · rw [hkeys, Plural.Grouping.keys_collect]
    exact firstSeen_eraseDups _
  · intro key hk
    rw [hkeys] at hk
    obtain ⟨contract, hget, hkey⟩ := Contract.exists_get?_of_ofGrouping hcon hk
    obtain ⟨hck, hplural, hexact, hread⟩ := Contract.exact_of_ofKey hn hc hk hkey
    refine ⟨contract, ?_, hck, ?_, hexact, hread, fun values hm => hexact.serves hm⟩
    · rw [Catalog.contract, Path.resolve, hget]
    · rw [hplural, isPlural, hfam]
      rfl

/-- A plural phrase of which one variant is a directive for another parameter than the count. -/
theorem exact_and_serves_cats :
    let tree : Table := [(.text "cat#one", .text "{count} cat in {box}"),
      (.text "cat", .table [(.text "hi", .text "Hi")]),
      (.text "cat#other", .text "{n, plural, =0 {{count} cats} other {{count} cats, {n} in {box}}}")]
    let values : Table := [(.text "box", .text "red"), (.text "n", .int 2), (.text "count", .int 7)]
    Table.isProper tree = true ∧ ∃ catalog contract, (ofTable {} tree).outcome = .ok catalog ∧
      catalog.keys = ["cat", "cat.hi"] ∧ catalog.contract "cat" none = .ok contract ∧
      contract.fields = ["count", "box", "n"] ∧ contract.Exact (Plural.leavesOf "cat" catalog.entries) ∧
      contract.missing values = [] ∧ contract.Serves (Plural.leavesOf "cat" catalog.entries) values := by
  intro tree values
  have ht : Table.isProper tree = true := by decide +kernel
  have hrun : ((ofTable {} tree).outcome.toOption.map fun catalog =>
      (catalog.keys, (catalog.contract "cat" none).toOption.map fun contract =>
        (contract.fields, contract.missing values))) =
      some (["cat", "cat.hi"], some (["count", "box", "n"], [])) := by decide +kernel
  cases hcat : (ofTable {} tree).outcome with
  | error fault => simp [hcat, Except.toOption] at hrun
  | ok catalog =>
    obtain ⟨-, -, hall⟩ := exact_and_serves ht hcat
    simp only [hcat, Except.toOption, Option.map_some, Option.some.injEq, Prod.mk.injEq] at hrun
    obtain ⟨hkeys, hcon⟩ := hrun
    obtain ⟨contract, hget, -, -, hexact, -, hserves⟩ := hall "cat" (by simp [hkeys])
    simp only [hget, Option.map_some, Option.some.injEq, Prod.mk.injEq] at hcon
    obtain ⟨hfields, hmissing⟩ := hcon
    exact ⟨ht, catalog, contract, rfl, hkeys, hget, hfields, hexact, hmissing, hserves values hmissing⟩

end Catalog

end Phrasebook
