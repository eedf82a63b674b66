import Phrasebook.Proofs.Reordering
import Phrasebook.Proofs.Template.Oddities
import Phrasebook.Proofs.Text.Likeness

/-!
# The findings of a catalog

What is odd about a tree is said of its leaves, without a way to find it: of the ends of ordinary paths, leaf by leaf,
and then of the texts, phrase by phrase.

* `Plural.resemblesCategory_iff`: which texts are close to the name of a category.
* `Plural.endFindings_iff` and `Entry.textFindings_iff`: what is odd about a path and about a text.
* `Catalog.findings_exact`: the findings of a catalog are these, and there is but one list of them.
-/

namespace Phrasebook

/-! ## What is listed item by item -/

/-- A list is made of one part for each item of another one, in order. -/
def Listed {α β : Type} (part : α → List β → Prop) (xs : List α) (ys : List β) : Prop :=
  ∃ parts, List.Forall₂ part xs parts ∧ ys = parts.flatten

/-- If there is but one part for each item, there is but one list. -/
theorem listed_iff {α β : Type} {part : α → List β → Prop} {f : α → List β} (h : ∀ x ys, part x ys ↔ ys = f x)
    {xs : List α} {ys : List β} : Listed part xs ys ↔ ys = xs.flatMap f := by
  simp only [Listed, forall₂_iff_eq_map h, exists_eq_left, List.flatMap_def]

/-! ## The ends of paths -/

namespace Plural

/-- A path of a variant: a base path of which the last key is not empty, a `#` and the name of a category. -/
def IsVariant (path : String) : Prop :=
  ∃ base category, path = variantPath base category ∧ base ≠ "" ∧ base.toList.getLast? ≠ some '.'

/-- What is behind the last `#` of a path, if that is in its last key. -/
def EndsWith (path : String) (token : List Char) : Prop :=
  ∃ before, path.toList = before ++ '#' :: token ∧ '#' ∉ token ∧ '.' ∉ token

/-- A text that is the name of a category but for its case and the white space at its ends, or that shares with such a
name at least four fifths of their characters. -/
def IsClose (token : List Char) : Prop :=
  ∃ category : Category, Text.lower (Text.trim token) = category.name.toList ∨
    ∃ n, Text.Shares category.name.toList (Text.lower (Text.trim token)) n ∧
      4 / 5 ≤ Text.shareOf n category.name.toList (Text.lower (Text.trim token))

/-- What is odd about the end of an ordinary path: that it is the name of a category, or that it is close to one. -/
inductive OddEnd (path : String) : Finding → Prop
  | baseless {category : Category} (ordinary : ¬IsVariant path) (ends : EndsWith path category.name.toList) :
      OddEnd path (.baselessVariant path category)
  | near {token : List Char} (ordinary : ¬IsVariant path) (ends : EndsWith path token)
      (other : ∀ category : Category, token ≠ category.name.toList) (close : IsClose token) :
      OddEnd path (.nearVariant path (String.ofList token))

/-- What is found at the end of a path: what is odd about it, or nothing. -/
def EndFindings (path : String) (found : List Finding) : Prop :=
  (∃ finding, OddEnd path finding ∧ found = [finding]) ∨ (∀ finding, ¬OddEnd path finding) ∧ found = []

theorem isVariant_iff {path : String} : IsVariant path ↔ (splitVariant? path).isSome = true := by
  rw [Option.isSome_iff_exists, Prod.exists]
  simp only [IsVariant, splitVariant?_eq_some_iff]

/-- **Which texts are close to the name of a category.** -/
theorem resemblesCategory_iff {token : List Char} : resemblesCategory token = true ↔ IsClose token := by
  simp only [resemblesCategory, IsClose, List.any_eq_true, Bool.or_eq_true, decide_eq_true_eq, Text.alike_iff]
  constructor
  · rintro ⟨category, -, heq | halike⟩
    · exact ⟨category, Or.inl heq.symm⟩
    · exact ⟨category, Or.inr halike⟩
  · rintro ⟨category, heq | halike⟩
    · exact ⟨category, category.mem_all, Or.inl heq.symm⟩
    · exact ⟨category, category.mem_all, Or.inr halike⟩

theorem endsWith_iff {path : String} {token : List Char} :
    EndsWith path token ↔ ∃ before, Text.cutAtLast? '#' path.toList = some (before, token) ∧ '.' ∉ token := by
  simp only [EndsWith, Text.cutAtLast?_eq_some_iff, and_assoc]

/-- No category has the name of a text that is none of their names. -/
theorem Category.ofName?_ofList_eq_none_iff {token : List Char} :
    ofName? (String.ofList token) = none ↔ ∀ category : Category, token ≠ category.name.toList := by
  rw [Option.eq_none_iff_forall_ne_some]
  refine forall_congr' fun category => not_congr ?_
  rw [ofName?_eq_some_iff, ← String.toList_inj, String.toList_ofList]

theorem oddEnd_iff {path : String} {finding : Finding} :
    OddEnd path finding ↔ (splitVariant? path).isSome = false ∧ suffixFindings path = [finding] := by
  constructor
  · rintro (⟨hordinary, hends⟩ | ⟨hordinary, hends, hother, hclose⟩)
    · obtain ⟨before, hcut, hdot⟩ := endsWith_iff.1 hends
      refine ⟨by simpa using mt isVariant_iff.2 hordinary, ?_⟩
      simp [suffixFindings, hcut, hdot]
    · obtain ⟨before, hcut, hdot⟩ := endsWith_iff.1 hends
      refine ⟨by simpa using mt isVariant_iff.2 hordinary, ?_⟩
      simp [suffixFindings, hcut, hdot, Category.ofName?_ofList_eq_none_iff.2 hother, resemblesCategory_iff.2 hclose]
  · rintro ⟨hsplit, hfound⟩
    have hordinary : ¬IsVariant path := by
      rw [isVariant_iff, hsplit]
      exact Bool.false_ne_true
    unfold suffixFindings at hfound
    split at hfound
    · cases hfound
    · next before token hcut =>
      split at hfound
      · cases hfound
      · next hdot =>
        have hends : EndsWith path token := endsWith_iff.2 ⟨before, hcut, by simpa using hdot⟩
        split at hfound
        · next category hname =>
          obtain rfl := List.singleton_inj.1 hfound
          rw [Category.ofName?_eq_some_iff, ← String.toList_inj, String.toList_ofList] at hname
          exact .baseless hordinary (hname ▸ hends)
        · next hname =>
          split at hfound
          · next hclose =>
            obtain rfl := List.singleton_inj.1 hfound
            exact .near hordinary hends (Category.ofName?_ofList_eq_none_iff.1 hname) (resemblesCategory_iff.1 hclose)
          · cases hfound

/-- No more than one thing is odd about the end of a path. -/
theorem suffixFindings_cases (path : String) :
    suffixFindings path = [] ∨ ∃ finding, suffixFindings path = [finding] := by
  unfold suffixFindings
  split
  · exact Or.inl rfl
  · split
    · exact Or.inl rfl
    · split
      · exact Or.inr ⟨_, rfl⟩
      · split
        · exact Or.inr ⟨_, rfl⟩
        · exact Or.inl rfl

/-- **What is odd about the end of a path is what is found.** -/
theorem endFindings_iff {path : String} {found : List Finding} :
    EndFindings path found ↔ found = if (splitVariant? path).isSome then [] else suffixFindings path := by
  simp only [EndFindings, oddEnd_iff]
  cases (splitVariant? path).isSome with
  | true => simp
  | false =>
    rcases suffixFindings_cases path with hnone | ⟨finding, hone⟩
    · simp [hnone]
    · simp [hone]

/-- An ordinary path that ends with the name of a category has no key before it. -/
theorem OddEnd.exists_variantPath {path : String} {category : Category}
    (h : OddEnd path (.baselessVariant path category)) :
    ∃ base, path = variantPath base category ∧ (base = "" ∨ base.toList.getLast? = some '.') := by
  obtain ⟨hordinary, before, hpath, -, -⟩ := h
  have hvariant : path = variantPath (String.ofList before) category := by
    rw [← String.toList_inj, hpath]
    simp [variantPath]
  refine ⟨String.ofList before, hvariant, ?_⟩
  by_contra hbase
  rw [not_or] at hbase
  exact hordinary ⟨_, category, hvariant, hbase⟩

end Plural

/-! ## The findings of a catalog -/

/-- What is found at a leaf: what is odd about a text, and nothing about any other value. -/
inductive Entry.TextFindings (entry : Entry) : List Finding → Prop
  | text {s : String} {found : List Finding} (value : entry.value = .text s)
      (odd : Template.Oddities entry.path s found) : entry.TextFindings found
  | other (value : ∀ s, entry.value ≠ .text s) : entry.TextFindings []

theorem Entry.textFindings_iff {entry : Entry} {found : List Finding} :
    entry.TextFindings found ↔ found = entry.findings := by
  obtain ⟨path, value⟩ := entry
  constructor
  · rintro (⟨hvalue, hodd⟩ | hvalue)
    · obtain rfl : value = _ := hvalue
      exact Template.oddities_iff.1 hodd
    · cases value with
      | text s => exact absurd rfl (hvalue s)
      | _ => rfl
  · rintro rfl
    cases value with
    | text s => exact .text rfl (Template.oddities_iff.2 rfl)
    | _ => exact .other fun s h => by cases h

/-- Nothing that is found at a text is about the end of a path. -/
theorem Entry.baselessVariant_not_mem_findings (entry : Entry) (path : String) (category : Plural.Category) :
    .baselessVariant path category ∉ entry.findings := by
  unfold findings
  split
  · simp [Template.findings, apply_ite (Finding.baselessVariant path category ∈ ·)]
  · exact List.not_mem_nil

/-- Where the name of a category is found at the end of an ordinary path, there is no key before it. -/
theorem Plural.exists_variantPath_of_mem_findings {entries : List Entry} {path : String} {category : Category}
    (h : .baselessVariant path category ∈ Grouping.findings entries) :
    ∃ base, path = variantPath base category ∧ (base = "" ∨ base.toList.getLast? = some '.') := by
  obtain ⟨entry, -, hfound⟩ := List.mem_flatMap.1 h
  rcases endFindings_iff.2 rfl with ⟨finding, hodd, hone⟩ | ⟨-, hnone⟩
  · rw [hone] at hfound
    obtain rfl := List.mem_singleton.1 hfound
    obtain rfl : entry.path = path := by
      cases hodd
      rfl
    exact hodd.exists_variantPath
  · rw [hnone] at hfound
    cases hfound

namespace Catalog

/-- What is found in leaves: at the end of the path of each leaf, in order, and then at the text of each leaf, phrase
after phrase in the order of the keys and in order among the leaves of a phrase. -/
def AreFindings (entries : List Entry) (keys : List String) (found : List Finding) : Prop :=
  ∃ ends texts, Listed (fun entry => Plural.EndFindings entry.path) entries ends ∧
    Listed (fun key => Listed Entry.TextFindings (Plural.leavesOf key entries)) keys texts ∧ found = ends ++ texts

theorem areFindings_iff {entries : List Entry} {keys : List String} {found : List Finding} :
    AreFindings entries keys found ↔ found = Plural.Grouping.findings entries ++
      keys.flatMap fun key => (Plural.leavesOf key entries).flatMap Entry.findings := by
  have hends : ∀ ends, Listed (fun entry => Plural.EndFindings entry.path) entries ends ↔
      ends = Plural.Grouping.findings entries := by
    intro ends
    have hend : ∀ (entry : Entry) found, Plural.EndFindings entry.path found ↔
        found = if (Plural.splitVariant? entry.path).isSome then [] else Plural.suffixFindings entry.path :=
      fun _ _ => Plural.endFindings_iff
    exact listed_iff hend
  have htexts : ∀ texts, Listed (fun key => Listed Entry.TextFindings (Plural.leavesOf key entries)) keys texts ↔
      texts = keys.flatMap fun key => (Plural.leavesOf key entries).flatMap Entry.findings :=
    fun _ => listed_iff fun _ _ => listed_iff fun entry _ => entry.textFindings_iff
  simp only [AreFindings, hends, htexts, exists_and_left, exists_eq_left]

variable {options : Options} {tree : Table} {c : Catalog}

/-- **The findings of a catalog are exactly what is odd about its leaves**, in order: one for each ordinary path that
ends with the name of a category, which then has no key before it, or with something close to one; and then, phrase
after phrase and leaf after leaf, that a text looks like a directive and is none, how many placeholders without a name
it has, and which of its parameters come again. -/
theorem findings_exact (ht : Table.isProper tree = true) (h : (ofTable options tree).outcome = .ok c) :
    tree.leaves options.maxDepth = .ok c.entries ∧
      (∀ found, AreFindings c.entries c.keys found ↔ found = c.findings) ∧
      ∀ path category, .baselessVariant path category ∈ c.findings →
        ∃ base, path = Plural.variantPath base category ∧ (base = "" ∨ base.toList.getLast? = some '.') := by
  obtain ⟨hl, -, hkeys, -, -⟩ := ofTable_eq_ok h
  have hall : ∀ found, AreFindings c.entries c.keys found ↔ found = c.findings := by
    intro found
    rw [areFindings_iff, findings_of_ofTable ht h, hkeys, Plural.Grouping.keys_collect, Plural.byPhrase,
      List.flatMap_assoc]
    rfl
  refine ⟨hl, hall, fun path category hfinding => ?_⟩
  rw [findings_of_ofTable ht h, List.mem_append] at hfinding
  rcases hfinding with hfinding | hfinding
  · exact Plural.exists_variantPath_of_mem_findings hfinding
  · obtain ⟨entry, -, hfinding⟩ := List.mem_flatMap.1 hfinding
    exact absurd hfinding (entry.baselessVariant_not_mem_findings path category)

/-- A name without a key before it and one in capitals; variants of which one names two parameters again, in another
order than at first, and one is a directive; and a text that is almost one. -/
theorem findings_exact_cats :
    let tree : Table := [(.text "#one", .text "cat"), (.text "cat#One", .text "cats"),
      (.text "cat#few", .text "{b} {a} {} {a} {b} {a}"),
      (.text "cat#other", .text "{n, plural, =0 {no {m}} other {{} {n}}}"), (.text "dog", .text "{n ,plural, dogs}")]
    Table.isProper tree = true ∧ ∃ c, (ofTable {} tree).outcome = .ok c ∧ AreFindings c.entries c.keys
      [.baselessVariant "#one" .one, .nearVariant "cat#One" "One", .blankPlaceholders "cat#few" 1,
        .repeatedParameter "cat#few" "a", .repeatedParameter "cat#few" "b", .blankPlaceholders "cat#other" 1,
        .repeatedParameter "cat#other" "n", .nearDirective "dog"] := by
  intro tree
  have ht : Table.isProper tree = true := by decide +kernel
  have hrun : (ofTable {} tree).outcome.toOption.map Catalog.findings =
      some [.baselessVariant "#one" .one, .nearVariant "cat#One" "One", .blankPlaceholders "cat#few" 1,
        .repeatedParameter "cat#few" "a", .repeatedParameter "cat#few" "b", .blankPlaceholders "cat#other" 1,
        .repeatedParameter "cat#other" "n", .nearDirective "dog"] := by decide +kernel
  obtain ⟨c, hc, hfindings⟩ := Option.map_eq_some_iff.1 hrun
  have hc := toOption_eq_some_iff.1 hc
  exact ⟨ht, c, hc, ((findings_exact ht hc).2.1 _).2 hfindings.symm⟩

end Catalog

end Phrasebook
