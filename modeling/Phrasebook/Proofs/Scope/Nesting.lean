import Phrasebook.Proofs.Contract
import Phrasebook.Proofs.Scope.Prefix
import Phrasebook.Proofs.Tree.Rows

/-!
# Nesting a phrase tree under a scope

The catalog of a tree with one table in it, at some key, is the catalog of that table seen from outside of the scope.

* `Audit.Follows` relates two audits that go the same way, one within the scope and one outside of it. It is kept by
  `bind` and `mapM`, and each stage of the analysis follows the same stage without the scope:
  `Table.follows_leaves`, `Plural.Grouping.follows_ofEntries`, `Contract.follows_ofGrouping`.
* `Catalog.follows_ofTable` puts them together, and `Catalog.ofTable_nested` says what this means for a caller.
-/

namespace Phrasebook

variable {scope : String}

/-! ## Audits that go the same way -/

namespace Audit

variable {α β γ δ : Type}

/-- Two audits go the same way: the second one finds what the first one does, seen from outside of a scope, and both
answer, with answers that are related, or both fail. -/
structure Follows (scope : String) (R : α → β → Prop) (x : Audit α) (y : Audit β) : Prop where
  findings : y.findings = x.findings.map (Finding.under scope)
  outcome : (∃ a b, x.outcome = .ok a ∧ y.outcome = .ok b ∧ R a b) ∨
    ∃ fault fault', x.outcome = .error fault ∧ y.outcome = .error fault'

variable {R : α → β → Prop} {S : γ → δ → Prop}

theorem Follows.pure {a : α} {b : β} (h : R a b) : Follows scope R (pure a : Audit α) (pure b : Audit β) :=
  ⟨rfl, Or.inl ⟨a, b, rfl, rfl, h⟩⟩

theorem Follows.ofExcept {x : Except Fault α} {y : Except Fault β}
    (h : (∃ a b, x = .ok a ∧ y = .ok b ∧ R a b) ∨ ∃ fault fault', x = .error fault ∧ y = .error fault') :
    Follows scope R (Audit.ofExcept x) (Audit.ofExcept y) := ⟨rfl, h⟩

theorem Follows.report (findings : List Finding) :
    Follows scope (fun _ _ => True) (Audit.report findings) (Audit.report (findings.map (Finding.under scope))) :=
  ⟨rfl, Or.inl ⟨(), (), rfl, rfl, trivial⟩⟩

/-- Audits that go the same way still do so when others that go the same way come after them. -/
theorem Follows.bind {x : Audit α} {y : Audit β} {f : α → Audit γ} {g : β → Audit δ} (h : Follows scope R x y)
    (hfg : ∀ a b, R a b → Follows scope S (f a) (g b)) : Follows scope S (x >>= f) (y >>= g) := by
  obtain ⟨found, outcome⟩ := x
  obtain ⟨found', outcome'⟩ := y
  obtain ⟨rfl, ⟨a, b, rfl, rfl, hab⟩ | ⟨fault, fault', rfl, rfl⟩⟩ := h
  · refine ⟨?_, (hfg a b hab).outcome⟩
    show found.map (Finding.under scope) ++ (g b).findings = (found ++ (f a).findings).map (Finding.under scope)
    rw [(hfg a b hab).findings, List.map_append]
  · exact ⟨rfl, Or.inr ⟨fault, fault', rfl, rfl⟩⟩

/-- Of two audits that go the same way one answers exactly if the other one does. -/
theorem Follows.exists_ok_iff {x : Audit α} {y : Audit β} (h : Follows scope R x y) :
    (∃ b, y.outcome = .ok b) ↔ ∃ a, x.outcome = .ok a := by
  rcases h.outcome with ⟨a, b, ha, hb, -⟩ | ⟨fault, fault', ha, hb⟩
  · exact ⟨fun _ => ⟨a, ha⟩, fun _ => ⟨b, hb⟩⟩
  · rw [ha, hb]
    exact ⟨fun ⟨_, h⟩ => (by cases h), fun ⟨_, h⟩ => (by cases h)⟩

theorem Follows.related {x : Audit α} {y : Audit β} (h : Follows scope R x y) {a : α} {b : β}
    (ha : x.outcome = .ok a) (hb : y.outcome = .ok b) : R a b := by
  rcases h.outcome with ⟨a', b', ha', hb', hr⟩ | ⟨fault, fault', ha', -⟩
  · rw [ha] at ha'
    rw [hb] at hb'
    cases ha'
    cases hb'
    exact hr
  · rw [ha] at ha'
    cases ha'

/-- Rows of audits that go the same way one by one go the same way. -/
theorem Follows.mapM {f : α → Audit γ} {g : β → Audit δ} {xs : List α} {ys : List β}
    (h : List.Forall₂ (fun x y => Follows scope S (f x) (g y)) xs ys) :
    Follows scope (List.Forall₂ S) (xs.mapM f) (ys.mapM g) := by
  induction h with
  | nil => exact .pure .nil
  | cons hxy _ ih =>
    rw [List.mapM_cons, List.mapM_cons]
    exact hxy.bind fun _ _ hs => ih.bind fun _ _ hss => .pure (.cons hs hss)

end Audit

open Audit (Follows)

/-! ## Leaves and their grouping -/

namespace Table

/-- The leaves of a tree with one table in it are those of the table, below its key. -/
theorem leaves_nested_eq_ok_iff (hs : Path.isKey scope = true) {limit : Int} {tree : Table} {entries : List Entry} :
    leaves (limit + 1) [(.text scope, .table tree)] = .ok entries ↔
      ∃ inner, tree.leaves limit = .ok inner ∧ entries = inner.map (Entry.under scope) := by
  have hfits : (1 ≤ limit + 1 ∧ fits (limit + 1) [(.text scope, .table tree)] = true) ↔
      1 ≤ limit ∧ fits limit tree = true := by
    simp only [fits, Value.isKey, Value.fits, hs, Int.add_sub_cancel, Bool.true_and, Bool.and_true, Bool.and_eq_true,
      decide_eq_true_iff]
    constructor
    · exact fun h => h.2
    · exact fun h => ⟨by omega, h⟩
  have hrows : fits limit tree = true → (rows [(.text scope, .table tree)]).map (Entry.ofRow []) =
      ((rows tree).map (Entry.ofRow [])).map (Entry.under scope) := by
    intro hf
    rw [rows, rows, List.append_nil, Value.rows, List.map_map, List.map_map]
    refine List.map_congr_left fun row hrow => ?_
    simp only [Function.comp_apply, Entry.ofRow, Entry.under, Value.keyText_text, List.nil_append,
      Path.join_cons scope (isKey_of_mem_rows tree hf row hrow).1]
  simp only [leaves_eq_ok_iff]
  rw [hfits]
  constructor
  · rintro ⟨h, rfl⟩
    exact ⟨_, ⟨h, rfl⟩, hrows h.2⟩
  · rintro ⟨inner, ⟨h, rfl⟩, rfl⟩
    exact ⟨h, (hrows h.2).symm⟩

theorem follows_leaves (hs : Path.isKey scope = true) (limit : Int) (tree : Table) :
    Follows scope (fun inner outer => outer = inner.map (Entry.under scope)) (Audit.ofExcept (tree.leaves limit))
      (Audit.ofExcept (leaves (limit + 1) [(.text scope, .table tree)])) := by
  refine .ofExcept ?_
  cases h : tree.leaves limit with
  | ok inner => exact Or.inl ⟨inner, _, rfl, (leaves_nested_eq_ok_iff hs).2 ⟨inner, h, rfl⟩, rfl⟩
  | error fault =>
    cases h' : leaves (limit + 1) [(.text scope, .table tree)] with
    | ok outer =>
      obtain ⟨inner, hinner, -⟩ := (leaves_nested_eq_ok_iff hs).1 h'
      rw [hinner] at h
      cases h
    | error fault' => exact Or.inr ⟨fault, fault', rfl, rfl⟩

end Table

theorem Plural.Grouping.follows_ofEntries (entries : List Entry) :
    Follows scope (fun inner outer => outer = inner.under scope) (ofEntries entries)
      (ofEntries (entries.map (Entry.under scope))) := by
  refine ⟨findings_map_under entries, ?_⟩
  simp only [ofEntries, collect_map_under, clash?_under]
  cases (collect entries).clash? with
  | none => exact Or.inl ⟨_, _, rfl, rfl, rfl⟩
  | some key => exact Or.inr ⟨_, _, rfl, rfl⟩

/-! ## Contracts -/

theorem Template.findings_under (scope path : String) (t : Template) :
    t.findings (Path.under scope path) = (t.findings path).map (Finding.under scope) := by
  simp only [findings, List.map_append, List.map_map]
  refine congrArg₂ _ (congrArg₂ _ ?_ ?_) rfl
  · cases t.nearDirective <;> rfl
  · split <;> rfl

namespace Contract

/-- The contract outside of a scope. -/
def under (scope : String) (c : Contract) : Contract := { c with key := Path.under scope c.key }

theorem follows_inspect (limit : Int) (path : String) (value : Value) :
    Follows scope (· = ·) (inspect limit path value) (inspect limit (Path.under scope path) value) := by
  have hread : Follows scope (· = ·) (Audit.ofExcept (Template.ofValue path limit value))
      (Audit.ofExcept (Template.ofValue (Path.under scope path) limit value)) := by
    refine .ofExcept ?_
    cases value with
    | text s =>
      by_cases hlong : limit < s.length
      · exact Or.inr ⟨_, _, if_pos hlong, if_pos hlong⟩
      · exact Or.inl ⟨_, _, if_neg hlong, if_neg hlong, rfl⟩
    | _ => exact Or.inl ⟨_, _, rfl, rfl, rfl⟩
  refine hread.bind ?_
  rintro t _ rfl
  rw [Template.findings_under]
  exact (Follows.report (t.findings path)).bind fun _ _ _ => .pure rfl

theorem follows_ofFamily (limit : Int) (base : String) (variants : Plural.Variants) :
    Follows scope (fun inner outer => outer = inner.under scope) (ofFamily limit base variants)
      (ofFamily limit (Path.under scope base) variants) := by
  have hrows : List.Forall₂ (fun x y => Follows scope (· = ·)
      (inspect limit (Plural.variantPath base x.1) x.2)
      (inspect limit (Plural.variantPath (Path.under scope base) y.1) y.2)) variants variants := by
    refine List.forall₂_same.2 fun item _ => ?_
    rw [Plural.variantPath_under]
    exact follows_inspect ..
  refine (Follows.mapM hrows).bind fun templates templates' h => ?_
  rw [List.forall₂_eq_eq_eq] at h
  subst h
  exact .pure rfl

/-- The contract of a phrase asks below a scope for what it asks for without it. -/
theorem follows_ofKey (limit : Int) (g : Plural.Grouping) (key : String) :
    Follows scope (fun inner outer => outer = inner.under scope) (ofKey limit g key)
      (ofKey limit (g.under scope) (Path.under scope key)) := by
  have hinj := Path.under_injective scope
  unfold ofKey
  simp only [Plural.Grouping.under, Ordered.get?_mapKeys hinj]
  cases g.families.get? key with
  | some variants => exact follows_ofFamily limit key variants
  | none =>
    refine (follows_inspect limit key _).bind ?_
    rintro t _ rfl
    exact .pure rfl

/-- The contracts outside of a scope. -/
def allUnder (scope : String) (contracts : Ordered String Contract) : Ordered String Contract :=
  (contracts.mapKeys (Path.under scope)).mapValues (under scope)

theorem get?_allUnder (key : String) (contracts : Ordered String Contract) :
    (allUnder scope contracts).get? (Path.under scope key) = (contracts.get? key).map (under scope) := by
  rw [allUnder, Ordered.get?_mapValues, Ordered.get?_mapKeys (Path.under_injective scope)]

theorem follows_ofGrouping (limit : Int) (g : Plural.Grouping) :
    Follows scope (fun inner outer => outer = allUnder scope inner) (ofGrouping limit g)
      (ofGrouping limit (g.under scope)) := by
  let item (x : String × Contract) : String × Contract := (Path.under scope x.1, x.2.under scope)
  have hrows : List.Forall₂ (fun key key' => Follows scope (fun x y => item x = y)
      (ofKey limit g key >>= fun contract => pure (key, contract))
      (ofKey limit (g.under scope) key' >>= fun contract => pure (key', contract))) g.keys (g.under scope).keys := by
    refine List.forall₂_map_right_iff.2 (List.forall₂_same.2 fun key _ => ?_)
    refine (follows_ofKey limit g key).bind ?_
    rintro contract _ rfl
    exact .pure rfl
  have hitems : ∀ inner outer, List.Forall₂ (fun x y => item x = y) inner outer → outer = allUnder scope inner := by
    intro inner outer h
    rw [← List.forall₂_map_left_iff (f := item) (R := (· = ·)), List.forall₂_eq_eq_eq] at h
    rw [← h, allUnder, Ordered.mapKeys, Ordered.mapValues, List.map_map]
    rfl
  obtain ⟨hfindings, houtcome⟩ := Follows.mapM hrows
  refine ⟨hfindings, houtcome.imp_left ?_⟩
  rintro ⟨inner, outer, hi, ho, h⟩
  exact ⟨inner, outer, hi, ho, hitems inner outer h⟩

end Contract

/-! ## Catalogs -/

namespace Catalog

/-- The catalog outside of a scope: all paths are below the scope, which is the first of the scopes if there is a
leaf. -/
def under (scope : String) (c : Catalog) : Catalog where
  entries := c.entries.map (Entry.under scope)
  keys := c.keys.map (Path.under scope)
  scopes := if c.entries.isEmpty then [] else scope :: c.scopes.map (Path.under scope)
  families := c.families.mapKeys (Path.under scope)
  contracts := Contract.allUnder scope c.contracts
  findings := c.findings.map (Finding.under scope)

theorem scopes_map_under (hs : Path.isKey scope = true) (entries : List Entry) :
    Path.scopes ((entries.map (Entry.under scope)).map Entry.path) =
      if entries.isEmpty then [] else scope :: (Path.scopes (entries.map Entry.path)).map (Path.under scope) := by
  cases entries with
  | nil => rfl
  | cons entry entries =>
    have hpaths : ((entry :: entries).map (Entry.under scope)).map Entry.path =
        ((entry :: entries).map Entry.path).map (Path.under scope) := by
      rw [List.map_map, List.map_map]
      rfl
    rw [hpaths, Path.scopes_map_under hs (by simp)]
    rfl

/-- Catalogs that are made the same way are also the same way with what was found. -/
theorem follows_findings {x y : Audit Catalog} (h : Follows scope (fun inner outer => outer = inner.under scope) x y) :
    Follows scope (fun inner outer => outer = inner.under scope)
      { x with outcome := x.outcome.map fun catalog => { catalog with findings := x.findings } }
      { y with outcome := y.outcome.map fun catalog => { catalog with findings := y.findings } } := by
  obtain ⟨found, outcome⟩ := x
  obtain ⟨found', outcome'⟩ := y
  obtain ⟨rfl, ⟨inner, outer, rfl, rfl, rfl⟩ | ⟨fault, fault', rfl, rfl⟩⟩ := h
  · exact ⟨rfl, Or.inl ⟨_, _, rfl, rfl, rfl⟩⟩
  · exact ⟨rfl, Or.inr ⟨fault, fault', rfl, rfl⟩⟩

/-- The catalog of a nested tree is made as that of the tree is. -/
theorem follows_ofTable (hs : Path.isKey scope = true) (options : Options) (tree : Table) :
    Follows scope (fun inner outer => outer = inner.under scope) (ofTable options tree)
      (ofTable { options with maxDepth := options.maxDepth + 1 } [(.text scope, .table tree)]) := by
  refine follows_findings ((Table.follows_leaves hs options.maxDepth tree).bind ?_)
  rintro entries _ rfl
  refine (Plural.Grouping.follows_ofEntries entries).bind ?_
  rintro g _ rfl
  refine (Contract.follows_ofGrouping options.maxLength g).bind ?_
  rintro contracts _ rfl
  refine .pure ?_
  simp only [under, scopes_map_under hs, Plural.Grouping.under, List.map_nil]

/-- The keys of a catalog are not empty. -/
theorem ne_empty_of_mem_keys {options : Options} {tree : Table} {c : Catalog}
    (h : (ofTable options tree).outcome = .ok c) : ∀ key ∈ c.keys, key ≠ "" := by
  obtain ⟨hl, -, hkeys, -, -⟩ := ofTable_eq_ok h
  intro key hk
  rw [hkeys, Plural.Grouping.keys_collect, List.mem_eraseDups] at hk
  obtain ⟨entry, he, rfl⟩ := List.mem_map.1 hk
  have hpath : entry.path ≠ "" := by
    intro hempty
    have hall := (Table.exists_row_of_mem_leaves hl he).2.2
    rw [hempty] at hall
    exact absurd (hall "" (by decide)) (by decide)
  unfold Plural.phraseOf
  cases hsplit : Plural.splitVariant? entry.path with
  | none => exact hpath
  | some split => exact (Plural.splitVariant?_eq_some_iff.1 hsplit).2.1

/-- **Nesting commutes with the analysis.** A tree in a table of its own, at the key of a scope, has a catalog exactly
if the tree has one, where one table less is allowed. All paths in it are those of the tree, below the scope, and what
is found has the same kinds and messages. The scopes are the scope and then those of the tree, if there is a leaf. In
the scope there are the phrases of the tree with their contracts. -/
theorem ofTable_nested (hs : Path.isKey scope = true) (options : Options) (tree : Table) :
    let plain := ofTable options tree
    let nested := ofTable { options with maxDepth := options.maxDepth + 1 } [(.text scope, .table tree)]
    ((∃ n, nested.outcome = .ok n) ↔ ∃ c, plain.outcome = .ok c) ∧
      ∀ c n, plain.outcome = .ok c → nested.outcome = .ok n → n = c.under scope ∧
        n.findings.map (fun f => (f.kind, f.path, f.message)) =
          c.findings.map (fun f => (f.kind, Path.under scope f.path, f.message)) ∧
        n.keysIn (some scope) = c.keys ∧
        ∀ key, (n.contract key (some scope)).toOption =
          (c.contract key none).toOption.map (Contract.under scope) := by
  intro plain nested
  have hscope : scope ≠ "" := (Path.isKey_iff.1 hs).1
  have hfollows : Follows scope (fun inner outer => outer = inner.under scope) plain nested :=
    follows_ofTable hs options tree
  refine ⟨hfollows.exists_ok_iff, fun c n hc hn => ?_⟩
  obtain rfl : n = c.under scope := hfollows.related hc hn
  refine ⟨rfl, ?_, ?_, fun key => ?_⟩
  · simp [under]
  · have hrelative : ∀ key ∈ c.keys, Path.relative? (Path.under scope key) (some scope) = some key :=
      fun key hk => Path.relative?_under hscope (ne_empty_of_mem_keys hc key hk)
    rw [keysIn, under, List.filterMap_map]
    exact (List.filterMap_congr hrelative).trans List.filterMap_some
  · rw [contract, contract, Path.resolve_some hscope, Path.resolve, under, Contract.get?_allUnder]
    cases c.contracts.get? key <;> rfl

/-- A scope that looks like a variant, and a tree with a variant of an empty key, an empty placeholder and a plural
phrase. -/
theorem ofTable_nested_hash :
    let scope := "x#one"
    let tree : Table := [(.text "#one", .text "odd {}"), (.text "cat#one", .text "{count} cat"),
      (.text "cat#other", .text "{count} cats"), (.text "menu", .table [(.text "file", .text "{name}")])]
    Path.isKey scope = true ∧ ∃ c n, (ofTable {} tree).outcome = .ok c ∧
      (ofTable { maxDepth := 11 } [(.text scope, .table tree)]).outcome = .ok n ∧ n = c.under scope ∧
      n.keys = ["x#one.#one", "x#one.cat", "x#one.menu.file"] ∧ n.scopes = ["x#one", "x#one.menu"] ∧
      n.findings.map Finding.path = ["x#one.#one", "x#one.#one"] ∧ n.keysIn (some scope) = c.keys := by
  intro scope tree
  have hs : Path.isKey scope = true := by decide +kernel
  have hrun : (ofTable { maxDepth := 11 } [(.text scope, .table tree)]).outcome.toOption.map (fun n =>
      (n.keys, n.scopes, n.findings.map Finding.path)) =
      some (["x#one.#one", "x#one.cat", "x#one.menu.file"], ["x#one", "x#one.menu"], ["x#one.#one", "x#one.#one"]) := by
    decide +kernel
  obtain ⟨n, hn, hparts⟩ := Option.map_eq_some_iff.1 hrun
  have hn := toOption_eq_some_iff.1 hn
  obtain ⟨hkeys, hparts⟩ := Prod.mk.inj hparts
  obtain ⟨hscopes, hfindings⟩ := Prod.mk.inj hparts
  obtain ⟨hiff, hall⟩ := ofTable_nested hs {} tree
  obtain ⟨c, hc⟩ := hiff.1 ⟨n, hn⟩
  obtain ⟨hunder, -, hkeysIn, -⟩ := hall c n hc hn
  exact ⟨hs, c, n, hc, hn, hunder, hkeys, hscopes, hfindings, hkeysIn⟩

end Catalog

end Phrasebook
