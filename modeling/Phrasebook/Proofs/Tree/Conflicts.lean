import Phrasebook.Proofs.Tree.Assembled
import Phrasebook.Proofs.Tree.Layers
import Mathlib.Data.List.Nodup

/-!
# Leaves in one another's way

Entries of which one lies below another one cannot all be leaves of one tree. What assembling them does depends on which
of the two comes first: a leaf on the way to a later one is a fault, and a leaf that is planted at the place of a table
takes all that is in it away.

* `Table.plant_cases` is all that planting below a key does to any table. From it, `Table.plant_eq_error_iff` tells when
  a leaf cannot be planted, and `Table.leafAt?_plant` what is found when it was.
* `Table.leafAt?_ofEntries`: what is found in an assembled tree are the entries that stay (`Entry.Stays`), those without
  an entry behind them that they lie below.
* `Table.ofEntries_conflicts`: entries are refused exactly if one of them lies below an earlier one, and which of them
  are found if they are not. `Table.ofEntries_loses_a_leaf`: not all.
-/

namespace Phrasebook

/-! ## Leaves and what lies beyond them -/

/-- What is found along some keys as a leaf is found there. -/
theorem Value.at?_of_leafAt? {keys : List String} : ∀ {v leaf : Value}, v.leafAt? keys = some leaf →
    v.at? keys = some leaf := by
  induction keys with
  | nil =>
    intro v leaf h
    cases v <;> first | exact h | cases h
  | cons key keys ih =>
    intro v leaf h
    cases v with
    | table items =>
      obtain ⟨inner, hget, hleaf⟩ := Option.bind_eq_some_iff.1 h
      rw [at?, hget, Option.bind_some, ih hleaf]
    | _ => cases h

/-- Nothing is found beyond a leaf. -/
theorem Value.at?_append_of_leafAt? {keys more : List String} (hm : more ≠ []) : ∀ {v leaf : Value},
    v.leafAt? keys = some leaf → v.at? (keys ++ more) = none := by
  induction keys with
  | nil =>
    intro v leaf h
    obtain ⟨key, more, rfl⟩ := List.exists_cons_of_ne_nil hm
    cases v <;> first | rfl | cases h
  | cons key keys ih =>
    intro v leaf h
    cases v with
    | table items =>
      obtain ⟨inner, hget, hleaf⟩ := Option.bind_eq_some_iff.1 h
      rw [List.cons_append, at?, hget, Option.bind_some, ih hleaf]
    | _ => rfl

namespace Table

variable {items tree : Table} {keys keys' : List String} {entry : Entry} {fault : Fault} {leaf leaf' : Value}

/-- No two leaves are found along the same way. -/
theorem keys_eq_of_leafAt? (h : items.leafAt? keys = some leaf) (h' : items.leafAt? keys' = some leaf')
    (hp : keys <+: keys') : keys = keys' := by
  obtain ⟨more, rfl⟩ := hp
  by_cases hm : more = []
  · rw [hm, List.append_nil]
  · have hnone : items.leafAt? (keys ++ more) = none := Value.leafAt?_append hm h
    rw [hnone] at h'
    cases h'

/-! ## Planting into any table -/

/-- What is found where a value was put at a key. -/
theorem leafAt?_set_text (key key' : String) (v : Value) (keys : List String) :
    (items.set (.text key) v).leafAt? (key' :: keys) =
      if key = key' then v.leafAt? keys else items.leafAt? (key' :: keys) := by
  rw [leafAt?_cons, get?_set_text, Value.agrees_text, leafAt?_cons]
  by_cases h : key = key'
  · simp [h]
  · simp [h, Ne.symm h]

/-- **All that planting below a key can do**: there is a leaf at the key, which is a fault, or there is a table, or one
is made there, and the planting goes on in it. -/
theorem plant_cases (items : Table) (key : String) :
    (∃ leaf, items.leafAt? [key] = some leaf ∧ ∀ entry keys, keys ≠ [] →
        plant entry (key :: keys) items = .error (.badKey (.text key) entry.path)) ∨
      ∃ inner : Table, (∀ keys, items.leafAt? (key :: keys) = inner.leafAt? keys) ∧ ∀ entry keys, keys ≠ [] →
        plant entry (key :: keys) items =
          plant entry keys inner >>= fun inner => .ok (items.set (.text key) (.table inner)) := by
  cases hget : items.get? (.text key) with
  | none =>
    refine Or.inr ⟨[], fun keys => ?_, fun entry keys hk => ?_⟩
    · rw [leafAt?_cons, hget]
      cases keys <;> rfl
    · obtain ⟨next, keys, rfl⟩ := List.exists_cons_of_ne_nil hk
      rw [plant, hget]
      rfl
  | some v =>
    cases v with
    | table inner =>
      refine Or.inr ⟨inner, fun keys => by rw [leafAt?_cons, hget]; rfl, fun entry keys hk => ?_⟩
      obtain ⟨next, keys, rfl⟩ := List.exists_cons_of_ne_nil hk
      rw [plant, hget]
      rfl
    | _ =>
      refine Or.inl ⟨_, by rw [leafAt?_cons, hget]; rfl, fun entry keys hk => ?_⟩
      obtain ⟨next, keys, rfl⟩ := List.exists_cons_of_ne_nil hk
      rw [plant, hget]

/-- A leaf cannot be planted exactly if another one is found on the way to its place. -/
theorem plant_eq_error_iff : ∀ {items : Table}, plant entry keys items = .error fault ↔
    ∃ before key more leaf, keys = before ++ key :: more ∧ more ≠ [] ∧ items.leafAt? (before ++ [key]) = some leaf ∧
      fault = .badKey (.text key) entry.path := by
  induction keys with
  | nil => simp [plant]
  | cons key keys ih =>
    intro items
    by_cases hk : keys = []
    · subst hk
      refine iff_of_false (fun h => by cases h) ?_
      rintro ⟨before, key', more, leaf, hkeys, hmore, -⟩
      rcases List.cons_eq_append_iff.1 hkeys with ⟨-, h⟩ | ⟨before', -, h⟩
      · exact hmore (List.cons.inj h).2
      · simp at h
    rcases plant_cases items key with ⟨leaf, hleaf, hplant⟩ | ⟨inner, hinner, hplant⟩
    · rw [hplant entry keys hk]
      constructor
      · intro h
        cases h
        exact ⟨[], key, keys, leaf, rfl, hk, hleaf, rfl⟩
      · rintro ⟨before, key', more, leaf', hkeys, -, hleaf', rfl⟩
        -- the leaf at the key is the only one on the way
        have hprefix : [key] <+: before ++ [key'] := by
          cases before with
          | nil => simpa using (List.cons.inj hkeys).1
          | cons first before => exact ⟨before ++ [key'], by simp [(List.cons.inj hkeys).1]⟩
        have hsame : [] ++ [key] = before ++ [key'] := keys_eq_of_leafAt? hleaf hleaf' hprefix
        obtain ⟨-, hlast⟩ := List.append_inj' hsame rfl
        rw [(List.cons.inj hlast).1]
    · rw [hplant entry keys hk, bind_eq_error_iff, ih]
      constructor
      · rintro (⟨before, key', more, leaf, rfl, hmore, hleaf, hfault⟩ | ⟨_, -, h⟩)
        · exact ⟨key :: before, key', more, leaf, rfl, hmore, (hinner _).trans hleaf, hfault⟩
        · cases h
      · rintro ⟨before, key', more, leaf, hkeys, hmore, hleaf, hfault⟩
        left
        cases before with
        | nil =>
          obtain ⟨rfl, rfl⟩ := List.cons.inj hkeys
          rw [List.nil_append, hinner] at hleaf
          cases hleaf
        | cons first before =>
          obtain ⟨rfl, rfl⟩ := List.cons.inj hkeys
          exact ⟨before, key', more, leaf, rfl, hmore, (hinner _).symm.trans hleaf, hfault⟩

/-- A leaf that was planted is found along its keys, and along keys that are apart from them nothing has changed. -/
theorem leafAt?_plant (hv : entry.value.items? = none) : ∀ {keys : List String} {items tree : Table}, keys ≠ [] →
    plant entry keys items = .ok tree →
      tree.leafAt? keys = some entry.value ∧ ∀ keys', Apart keys keys' → tree.leafAt? keys' = items.leafAt? keys' := by
  intro keys
  induction keys with
  | nil => exact fun hne => absurd rfl hne
  | cons key keys ih =>
    intro items tree _ h
    -- what is at the key afterwards, and that nothing else has changed
    have hother : ∀ v : Value, tree = items.set (.text key) v → v.leafAt? keys = some entry.value →
        (∀ keys', Apart keys keys' → v.leafAt? keys' = items.leafAt? (key :: keys')) →
          tree.leafAt? (key :: keys) = some entry.value ∧
            ∀ keys', Apart (key :: keys) keys' → tree.leafAt? keys' = items.leafAt? keys' := by
      rintro v rfl hleaf hsame
      refine ⟨by rw [leafAt?_set_text, if_pos rfl, hleaf], fun keys' hapart => ?_⟩
      cases keys' with
      | nil => exact absurd List.nil_prefix hapart.2
      | cons key' keys' =>
        rw [leafAt?_set_text]
        split
        · next heq =>
          subst heq
          exact hsame keys' (apart_cons_iff.1 hapart)
        · rfl
    by_cases hk : keys = []
    · subst hk
      cases h
      refine hother entry.value rfl ?_ fun keys' hapart => absurd List.nil_prefix hapart.1
      cases hval : entry.value with
      | table inner => simp [hval, Value.items?] at hv
      | _ => rfl
    · rcases plant_cases items key with ⟨leaf, -, hplant⟩ | ⟨inner, hinner, hplant⟩
      · rw [hplant entry keys hk] at h
        cases h
      · rw [hplant entry keys hk] at h
        obtain ⟨inner', hinner', h⟩ := bind_eq_ok_iff.1 h
        obtain ⟨hleaf, hsame⟩ := ih hk hinner'
        refine hother (.table inner') (Except.ok.inj h).symm hleaf fun keys' hapart => ?_
        rw [hinner]
        exact hsame keys' hapart

end Table

/-! ## Which entries stay -/

namespace Entry

variable {entries : List Entry} {entry last : Entry}

/-- An entry of a list that stays: none behind it has a path that it lies below. -/
def Stays (entries : List Entry) (entry : Entry) : Prop :=
  ∃ before after, entries = before ++ entry :: after ∧ ∀ later ∈ after, ¬ Path.Below later.path entry.path

/-- One more entry stays, and takes away those that lie below it. -/
theorem stays_concat_iff : Stays (entries ++ [last]) entry ↔
    entry = last ∨ Stays entries entry ∧ ¬ Path.Below last.path entry.path := by
  constructor
  · rintro ⟨before, after, hsplit, hafter⟩
    cases after using List.reverseRecOn with
    | nil => exact Or.inl (List.cons.inj (List.append_inj' hsplit rfl).2).1.symm
    | append_singleton after later =>
      rw [← List.cons_append, ← List.append_assoc] at hsplit
      obtain ⟨hentries, hlast⟩ := List.append_inj' hsplit rfl
      obtain rfl := (List.cons.inj hlast).1
      rw [List.forall_mem_append, List.forall_mem_singleton] at hafter
      exact Or.inr ⟨⟨before, after, hentries, hafter.1⟩, hafter.2⟩
  · rintro (rfl | ⟨⟨before, after, rfl, hafter⟩, hlast⟩)
    · exact ⟨entries, [], rfl, fun _ h => absurd h List.not_mem_nil⟩
    · refine ⟨before, after ++ [last], by simp, ?_⟩
      rw [List.forall_mem_append, List.forall_mem_singleton]
      exact ⟨hafter, hlast⟩

/-- An entry that lies below no other one stays. -/
theorem stays_of_forall_not_below (he : entry ∈ entries) (h : ∀ other ∈ entries, ¬ Path.Below other.path entry.path) :
    Stays entries entry := by
  obtain ⟨before, after, rfl⟩ := List.append_of_mem he
  exact ⟨before, after, rfl, fun later hl => h later (List.mem_append_right _ (List.mem_cons_of_mem _ hl))⟩

/-- An entry lies below one that lies below no other one, if it is not such an entry itself. -/
theorem exists_top {n : Nat} : ∀ {entry : Entry}, entry ∈ entries → (Path.segments entry.path).length ≤ n →
    ∃ top ∈ entries, Path.segments top.path <+: Path.segments entry.path ∧
      ∀ other ∈ entries, ¬ Path.Below other.path top.path := by
  induction n with
  | zero =>
    intro entry _ hn
    exact absurd (List.length_eq_zero_iff.1 (Nat.le_zero.1 hn)) (Path.segments_ne_nil _)
  | succ n ih =>
    intro entry he hn
    by_cases h : ∃ other ∈ entries, Path.Below other.path entry.path
    · obtain ⟨other, ho, hbelow⟩ := h
      obtain ⟨more, hm, hsegments⟩ := Path.below_iff.1 hbelow
      have hlength := List.length_pos_of_ne_nil hm
      rw [hsegments, List.length_append] at hn
      obtain ⟨top, ht, hprefix, htop⟩ := ih ho (by omega)
      exact ⟨top, ht, hprefix.trans ⟨more, hsegments.symm⟩, htop⟩
    · exact ⟨entry, he, List.prefix_refl _, fun other ho hbelow => h ⟨other, ho, hbelow⟩⟩

/-- An entry that is in the way of another one: of the entries that come before that one, it is the topmost above it. -/
structure InWay (before : List Entry) (top entry : Entry) : Prop where
  mem : top ∈ before
  below : Path.Below top.path entry.path
  topmost : ∀ other ∈ before, ¬ Path.Below other.path top.path

/-- If an entry lies below earlier ones, one of them is in its way. -/
theorem exists_inWay_iff : (∃ top, InWay entries top entry) ↔ ∃ other ∈ entries, Path.Below other.path entry.path := by
  constructor
  · rintro ⟨top, h⟩
    exact ⟨top, h.mem, h.below⟩
  · rintro ⟨other, ho, hbelow⟩
    obtain ⟨more, hm, hsegments⟩ := Path.below_iff.1 hbelow
    obtain ⟨top, ht, ⟨between, hbetween⟩, htop⟩ := exists_top ho (Nat.le_refl _)
    refine ⟨top, ht, Path.below_iff.2 ⟨between ++ more, List.append_ne_nil_of_right_ne_nil between hm, ?_⟩, htop⟩
    rw [hsegments, ← hbetween, List.append_assoc]

/-- No entry lies below an earlier one. -/
def Unobstructed (entries : List Entry) : Prop :=
  entries.Pairwise fun earlier later => ¬ Path.Below earlier.path later.path

/-- Where no entry comes behind one that lies below it, none lies below an earlier one exactly if none lies below any. -/
theorem unobstructed_iff_forall (h : entries.Pairwise fun earlier later => ¬ Path.Below later.path earlier.path) :
    Unobstructed entries ↔ ∀ above ∈ entries, ∀ entry ∈ entries, ¬ Path.Below above.path entry.path := by
  refine ⟨fun hu => hu.forall_of_forall_of_flip (fun entry _ hbelow => ?_) h, List.pairwise_of_forall_mem_list⟩
  exact (Path.below_iff_leadOn.1 hbelow).2 rfl

theorem unobstructed_concat_iff : Unobstructed (entries ++ [last]) ↔
    Unobstructed entries ∧ ∀ entry ∈ entries, ¬ Path.Below entry.path last.path := by
  simp [Unobstructed, List.pairwise_append]

end Entry

/-! ## Assembling entries that may be in one another's way -/

namespace Table

variable {entries : List Entry} {tree : Table} {entry top : Entry} {fault : Fault}

/-- An entry below a leaf cannot be planted, and the fault names the last key of the leaf. -/
theorem exists_plant_eq_error {path : String} (hbelow : Path.Below path entry.path) {leaf : Value}
    (hleaf : tree.leafAt? (Path.segments path) = some leaf) : ∃ scope key, Path.segments path = scope ++ [key] ∧
      plant entry (Path.segments entry.path) tree = .error (.badKey (.text key) entry.path) := by
  obtain ⟨more, hm, hsegments⟩ := Path.below_iff.1 hbelow
  obtain ⟨scope, key, hkeys⟩ := (List.eq_nil_or_concat' _).resolve_left (Path.segments_ne_nil path)
  refine ⟨scope, key, hkeys, plant_eq_error_iff.2 ⟨scope, key, more, leaf, ?_, hm, hkeys ▸ hleaf, rfl⟩⟩
  rw [hsegments, hkeys, List.append_assoc]
  rfl

/-- **What is found in an assembled tree are the entries that stay.** -/
theorem leafAt?_ofEntries (hn : (entries.map Entry.path).Nodup) (hv : ∀ entry ∈ entries, entry.value.items? = none)
    (h : ofEntries entries = .ok tree) (keys : List String) (value : Value) :
    tree.leafAt? keys = some value ↔
      ∃ entry, Entry.Stays entries entry ∧ Path.segments entry.path = keys ∧ entry.value = value := by
  induction entries using List.reverseRecOn generalizing tree keys value with
  | nil =>
    cases h
    refine iff_of_false (fun h => by cases keys <;> cases h) ?_
    rintro ⟨entry, ⟨before, after, hsplit, -⟩, -⟩
    simp at hsplit
  | append_singleton entries last ih =>
    rw [ofEntries_concat] at h
    obtain ⟨before, hbefore, hplant⟩ := bind_eq_ok_iff.1 h
    rw [List.forall_mem_append, List.forall_mem_singleton] at hv
    rw [List.map_append, List.nodup_append] at hn
    have hold := ih hn.1 hv.1 hbefore
    obtain ⟨hlast, hsame⟩ := leafAt?_plant hv.2 (Path.segments_ne_nil last.path) hplant
    constructor
    · intro hleaf
      by_cases hkeys : keys = Path.segments last.path
      · subst hkeys
        exact ⟨last, Entry.stays_concat_iff.2 (Or.inl rfl), rfl, Option.some.inj (hlast.symm.trans hleaf)⟩
      · have hapart : Apart (Path.segments last.path) keys :=
          ⟨fun hp => hkeys (keys_eq_of_leafAt? hlast hleaf hp).symm,
            fun hp => hkeys (keys_eq_of_leafAt? hleaf hlast hp)⟩
        rw [hsame keys hapart] at hleaf
        obtain ⟨entry, hstays, rfl, hvalue⟩ := (hold keys value).1 hleaf
        refine ⟨entry, Entry.stays_concat_iff.2 (Or.inr ⟨hstays, fun hbelow => hapart.1 ?_⟩), rfl, hvalue⟩
        exact Path.prefix_segments_iff.2 (Or.inr hbelow)
    · rintro ⟨entry, hstays, rfl, rfl⟩
      rcases Entry.stays_concat_iff.1 hstays with rfl | ⟨hstays, hnot⟩
      · exact hlast
      have hleaf := (hold _ _).2 ⟨entry, hstays, rfl, rfl⟩
      have hmem : entry ∈ entries := by
        obtain ⟨_, _, rfl, -⟩ := hstays
        simp
      have hne : entry.path ≠ last.path :=
        hn.2.2 _ (List.mem_map_of_mem hmem) _ (List.mem_singleton_self _)
      -- the last entry does not lie below this one, or it could not have been planted
      have hfree : ¬ Path.Below entry.path last.path := by
        intro hbelow
        obtain ⟨_, _, _, herror⟩ := exists_plant_eq_error hbelow hleaf
        rw [hplant] at herror
        cases herror
      rw [hsame _ ⟨fun hp => ?_, fun hp => ?_⟩, hleaf]
      · exact (Path.prefix_segments_iff.1 hp).elim (Ne.symm hne) hnot
      · exact (Path.prefix_segments_iff.1 hp).elim hne hfree

/-- One more entry cannot be planted exactly if another one is in its way. -/
theorem plant_ofEntries_eq_error_iff (hn : (entries.map Entry.path).Nodup)
    (hv : ∀ entry ∈ entries, entry.value.items? = none) (h : ofEntries entries = .ok tree) :
    plant entry (Path.segments entry.path) tree = .error fault ↔
      ∃ top scope key, Entry.InWay entries top entry ∧ Path.segments top.path = scope ++ [key] ∧
        fault = .badKey (.text key) entry.path := by
  have hleaf : ∀ {top}, top ∈ entries → (∀ other ∈ entries, ¬ Path.Below other.path top.path) →
      tree.leafAt? (Path.segments top.path) = some top.value := fun ht htop =>
    (leafAt?_ofEntries hn hv h _ _).2 ⟨_, Entry.stays_of_forall_not_below ht htop, rfl, rfl⟩
  constructor
  · intro herror
    obtain ⟨scope, key, more, leaf, hsegments, hm, hfound, rfl⟩ := plant_eq_error_iff.1 herror
    obtain ⟨other, ⟨before, after, hsplit, -⟩, hkeys, -⟩ := (leafAt?_ofEntries hn hv h _ _).1 hfound
    have ho : other ∈ entries := hsplit ▸ by simp
    obtain ⟨top, ht, hprefix, htop⟩ := Entry.exists_top ho (Nat.le_refl _)
    rw [hkeys] at hprefix
    -- no leaf lies on the way to another one, so that the leaf on the way is the topmost
    have hsame := keys_eq_of_leafAt? (hleaf ht htop) hfound hprefix
    refine ⟨top, scope, key, ⟨ht, Path.below_iff.2 ⟨more, hm, ?_⟩, htop⟩, hsame, rfl⟩
    rw [hsegments, hsame, List.append_assoc]
    rfl
  · rintro ⟨top, scope, key, hway, hkeys, rfl⟩
    obtain ⟨scope', key', hkeys', herror⟩ := exists_plant_eq_error hway.below (hleaf hway.mem hway.topmost)
    obtain ⟨-, hlast⟩ := List.append_inj' (hkeys.symm.trans hkeys') rfl
    rw [herror, (List.cons.inj hlast).1]

/-- Entries can be assembled exactly if none of them lies below an earlier one. -/
theorem exists_ofEntries_iff (hn : (entries.map Entry.path).Nodup)
    (hv : ∀ entry ∈ entries, entry.value.items? = none) :
    (∃ tree, ofEntries entries = .ok tree) ↔ Entry.Unobstructed entries := by
  induction entries using List.reverseRecOn with
  | nil => exact iff_of_true ⟨[], rfl⟩ List.Pairwise.nil
  | append_singleton entries last ih =>
    rw [List.forall_mem_append, List.forall_mem_singleton] at hv
    rw [List.map_append, List.nodup_append] at hn
    rw [Entry.unobstructed_concat_iff, ← ih hn.1 hv.1, ofEntries_concat]
    constructor
    · rintro ⟨tree', h⟩
      obtain ⟨tree, hbefore, hplant⟩ := bind_eq_ok_iff.1 h
      refine ⟨⟨tree, hbefore⟩, fun other ho hbelow => ?_⟩
      obtain ⟨top, hway⟩ := Entry.exists_inWay_iff.2 ⟨other, ho, hbelow⟩
      obtain ⟨scope, key, hkeys⟩ := (List.eq_nil_or_concat' _).resolve_left (Path.segments_ne_nil top.path)
      have herror := (plant_ofEntries_eq_error_iff hn.1 hv.1 hbefore).2 ⟨top, scope, key, hway, hkeys, rfl⟩
      rw [hplant] at herror
      cases herror
    · rintro ⟨⟨tree, hbefore⟩, hfree⟩
      cases hplant : plant last (Path.segments last.path) tree with
      | ok tree' => exact ⟨tree', bind_eq_ok_iff.2 ⟨tree, hbefore, hplant⟩⟩
      | error fault =>
        obtain ⟨top, -, -, hway, -⟩ := (plant_ofEntries_eq_error_iff hn.1 hv.1 hbefore).1 hplant
        exact absurd hway.below (hfree top hway.mem)

/-- What keeps entries from being assembled is the first of them that lies below earlier ones. -/
theorem ofEntries_eq_error (hn : (entries.map Entry.path).Nodup) (hv : ∀ entry ∈ entries, entry.value.items? = none)
    (h : ofEntries entries = .error fault) :
    ∃ before entry after top scope key, entries = before ++ entry :: after ∧ Entry.Unobstructed before ∧
      Entry.InWay before top entry ∧ Path.segments top.path = scope ++ [key] ∧
        fault = .badKey (.text key) entry.path := by
  induction entries using List.reverseRecOn with
  | nil => cases h
  | append_singleton entries last ih =>
    rw [List.forall_mem_append, List.forall_mem_singleton] at hv
    rw [List.map_append, List.nodup_append] at hn
    rw [ofEntries_concat] at h
    rcases bind_eq_error_iff.1 h with h | ⟨tree, hbefore, hplant⟩
    · obtain ⟨before, entry, after, top, scope, key, rfl, hrest⟩ := ih hn.1 hv.1 h
      exact ⟨before, entry, after ++ [last], top, scope, key, by simp, hrest⟩
    · obtain ⟨top, scope, key, hway, hkeys, hfault⟩ := (plant_ofEntries_eq_error_iff hn.1 hv.1 hbefore).1 hplant
      exact ⟨entries, last, [], top, scope, key, rfl, (exists_ofEntries_iff hn.1 hv.1).1 ⟨tree, hbefore⟩, hway, hkeys,
        hfault⟩

/-- An entry that stays is found along its keys, and one that does not is lost: a leaf lies on the way there. -/
theorem at?_ofEntries (hn : (entries.map Entry.path).Nodup) (hv : ∀ entry ∈ entries, entry.value.items? = none)
    (h : ofEntries entries = .ok tree) (he : entry ∈ entries) :
    (Entry.Stays entries entry → tree.at? (Path.segments entry.path) = some entry.value) ∧
      (¬ Entry.Stays entries entry → tree.at? (Path.segments entry.path) = none) := by
  have hleaf : ∀ {other}, Entry.Stays entries other → tree.leafAt? (Path.segments other.path) = some other.value :=
    fun hstays => (leafAt?_ofEntries hn hv h _ _).2 ⟨_, hstays, rfl, rfl⟩
  refine ⟨fun hstays => Value.at?_of_leafAt? (hleaf hstays), fun hnot => ?_⟩
  obtain ⟨top, ht, ⟨more, hmore⟩, htop⟩ := Entry.exists_top he (Nat.le_refl _)
  have hstays := Entry.stays_of_forall_not_below ht htop
  have hm : more ≠ [] := by
    rintro rfl
    rw [List.append_nil] at hmore
    have hpath : top.path = entry.path := by rw [← Path.join_segments top.path, hmore, Path.join_segments]
    exact hnot (List.inj_on_of_nodup_map hn ht he hpath ▸ hstays)
  rw [← hmore]
  exact Value.at?_append_of_leafAt? hm (hleaf hstays)

/-- **Entries in one another's way, in either order.** Entries with different paths, none of which is a table, are
refused exactly if one of them lies below an earlier one: the first such entry is named in the fault, with the last key
of the topmost entry above it. Otherwise an entry is found along its keys exactly if none behind it lies above it, and
nothing is found there if one does. So where no entry comes behind one that lies below it, entries are refused exactly
if two of them are in conflict, and all of them are found if they are not. -/
theorem ofEntries_conflicts (hn : (entries.map Entry.path).Nodup)
    (hv : ∀ entry ∈ entries, entry.value.items? = none) :
    ((∃ tree, ofEntries entries = .ok tree) ↔ Entry.Unobstructed entries) ∧
      (∀ fault, ofEntries entries = .error fault →
        ∃ before entry after top scope key, entries = before ++ entry :: after ∧ Entry.Unobstructed before ∧
          Entry.InWay before top entry ∧ Path.segments top.path = scope ++ [key] ∧
            fault = .badKey (.text key) entry.path) ∧
      (∀ tree, ofEntries entries = .ok tree → ∀ entry ∈ entries,
        (Entry.Stays entries entry → tree.at? (Path.segments entry.path) = some entry.value) ∧
          (¬ Entry.Stays entries entry → tree.at? (Path.segments entry.path) = none)) ∧
      ((entries.Pairwise fun earlier later => ¬ Path.Below later.path earlier.path) →
        ((∃ fault, ofEntries entries = .error fault) ↔
          ∃ above ∈ entries, ∃ entry ∈ entries, Path.Below above.path entry.path) ∧
        ∀ tree, ofEntries entries = .ok tree → ∀ entry ∈ entries,
          tree.at? (Path.segments entry.path) = some entry.value) := by
  have hok := exists_ofEntries_iff hn hv
  refine ⟨hok, fun fault h => ofEntries_eq_error hn hv h, fun tree h entry he => at?_ofEntries hn hv h he,
    fun hup => ⟨?_, fun tree h entry he => (at?_ofEntries hn hv h he).1 ?_⟩⟩
  · have hall := hok.trans (Entry.unobstructed_iff_forall hup)
    cases h : ofEntries entries with
    | ok tree =>
      refine iff_of_false (fun ⟨_, h⟩ => by cases h) ?_
      rintro ⟨above, ha, entry, he, hbelow⟩
      exact hall.1 ⟨tree, h⟩ above ha entry he hbelow
    | error fault =>
      refine iff_of_true ⟨fault, rfl⟩ ?_
      by_contra hnone
      obtain ⟨tree, htree⟩ := hall.2 fun above ha entry he hbelow => hnone ⟨above, ha, entry, he, hbelow⟩
      rw [h] at htree
      cases htree
  · obtain ⟨before, after, rfl⟩ := List.append_of_mem he
    exact ⟨before, after, rfl, fun later hl => List.rel_of_pairwise_cons (List.pairwise_append.1 hup).2.1 hl⟩

/-- A leaf behind one of the leaves below it, and another leaf between the two. -/
theorem ofEntries_conflicts_menu :
    let entries : List Entry := [⟨"menu.open", .text "Open"⟩, ⟨"title", .text "Menu"⟩, ⟨"menu", .text "Close"⟩]
    (entries.map Entry.path).Nodup ∧ (∀ entry ∈ entries, entry.value.items? = none) ∧
      ∃ tree, ofEntries entries = .ok tree ∧ tree.at? ["menu"] = some (.text "Close") ∧
        tree.at? ["title"] = some (.text "Menu") ∧ tree.at? ["menu", "open"] = none := by
  intro entries
  have hn : (entries.map Entry.path).Nodup := by decide +kernel
  have hv : ∀ entry ∈ entries, entry.value.items? = none := by simp [entries, Value.items?]
  have hu : Entry.Unobstructed entries := by unfold Entry.Unobstructed; decide +kernel
  obtain ⟨hok, -, hfound, -⟩ := ofEntries_conflicts hn hv
  obtain ⟨tree, h⟩ := hok.2 hu
  have hmenu := hfound tree h ⟨"menu", .text "Close"⟩ (by simp [entries])
  have htitle := hfound tree h ⟨"title", .text "Menu"⟩ (by simp [entries])
  have hopen := hfound tree h ⟨"menu.open", .text "Open"⟩ (by simp [entries])
  refine ⟨hn, hv, tree, h, hmenu.1 ?_, htitle.1 ?_, hopen.2 ?_⟩
  · exact ⟨entries.take 2, [], rfl, by simp⟩
  · exact ⟨entries.take 1, entries.drop 2, rfl, by decide +kernel⟩
  · intro hstays
    have hthree : Entry.Stays (entries.take 2 ++ [⟨"menu", .text "Close"⟩]) ⟨"menu.open", .text "Open"⟩ := hstays
    rcases Entry.stays_concat_iff.1 hthree with hlast | ⟨-, hnot⟩
    · exact absurd (congrArg Entry.path hlast) (by decide +kernel)
    · exact hnot (by decide +kernel)

/-- A leaf behind one below it is not refused: the table with the earlier leaf makes way for it. -/
theorem ofEntries_loses_a_leaf :
    let entries : List Entry := [⟨"a.b", .text "x"⟩, ⟨"a", .text "y"⟩]
    (entries.map Entry.path).Nodup ∧ (∀ entry ∈ entries, entry.value.isLeaf = true) ∧ Path.Below "a" "a.b" ∧
      ofEntries entries = .ok [(.text "a", .text "y")] ∧
      Table.at? [(.text "a", .text "y")] (Path.segments "a.b") = none := by
  refine ⟨by decide +kernel, by decide +kernel, by decide +kernel, rfl, by decide +kernel⟩

end Table

end Phrasebook
