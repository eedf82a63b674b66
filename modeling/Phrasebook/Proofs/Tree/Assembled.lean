import Phrasebook.Proofs.Tree.Branches
import Phrasebook.Proofs.Tree.Planting

/-!
# Assembling leaves in any order

* `Entry.Compatible`: entries that can be the leaves of one tree.
* `Table.exists_assembled`: planting them one after the other gives their rows in some order, and in their order if
  those below each scope stand next to each other (`Entry.Contiguous`).
* `Table.contiguous_leaves`: the leaves of a tree stand like this.
* `Table.leaves_ofEntries`: the leaves of the tree that is assembled from some entries are these entries.
-/

namespace Phrasebook

/-! ## Planting all leaves -/

/-- The row of an entry. -/
def Entry.toRow (entry : Entry) : List String × Value := (Path.segments entry.path, entry.value)

/-- Entries that can be the leaves of one tree: their values may be phrases, what stands between the dots of their paths
is not empty, no two have the same path, and none lies below another one. -/
structure Entry.Compatible (entries : List Entry) : Prop where
  isLeaf : ∀ entry ∈ entries, entry.value.isLeaf = true
  keys_ne : ∀ entry ∈ entries, ∀ key ∈ Path.segments entry.path, key ≠ ""
  nodup : (entries.map Entry.path).Nodup
  not_below : ∀ entry ∈ entries, ∀ other ∈ entries, ¬ Path.Below entry.path other.path

/-- The entries below each scope stand next to each other: one between two of them is below the scope, too. -/
def Entry.Contiguous (entries : List Entry) : Prop :=
  ∀ scope first between last, [first, between, last].Sublist entries →
    Path.Below scope first.path → Path.Below scope last.path → Path.Below scope between.path

namespace Entry

variable {entries more : List Entry}

theorem Compatible.isKey (h : Compatible entries) {entry : Entry} (he : entry ∈ entries) :
    ∀ key ∈ Path.segments entry.path, Path.isKey key = true :=
  fun key hkey => Path.isKey_of_mem_segments hkey (h.keys_ne entry he key hkey)

/-- The keys of entries that can be leaves of one tree are apart. -/
theorem Compatible.apart (h : Compatible entries) {entry other : Entry} (he : entry ∈ entries) (ho : other ∈ entries)
    (hne : entry.path ≠ other.path) : Table.Apart (Path.segments entry.path) (Path.segments other.path) := by
  refine ⟨fun hprefix => ?_, fun hprefix => ?_⟩
  · exact (Path.prefix_segments_iff.1 hprefix).elim hne (h.not_below entry he other ho)
  · exact (Path.prefix_segments_iff.1 hprefix).elim (Ne.symm hne) (h.not_below other ho entry he)

theorem Compatible.of_append (h : Compatible (entries ++ more)) : Compatible entries where
  isLeaf := fun entry he => h.isLeaf entry (List.mem_append_left _ he)
  keys_ne := fun entry he => h.keys_ne entry (List.mem_append_left _ he)
  nodup := (List.nodup_append.1 (List.map_append ▸ h.nodup)).1
  not_below := fun entry he other ho => h.not_below entry (List.mem_append_left _ he) other (List.mem_append_left _ ho)

theorem Contiguous.of_append (h : Contiguous (entries ++ more)) : Contiguous entries :=
  fun scope first between last hsub => h scope first between last (hsub.trans (List.sublist_append_left _ _))

/-- The paths of other entries are different from that of the last one. -/
theorem Compatible.path_ne_last {entry other : Entry} (h : Compatible (entries ++ [entry])) (ho : other ∈ entries) :
    other.path ≠ entry.path := by
  have hn := h.nodup
  rw [List.map_append, List.nodup_append] at hn
  exact hn.2.2 _ (List.mem_map_of_mem ho) _ (List.mem_singleton_self _)

/-- Where the entries below each scope stand together, the row of the last one does not come before others. -/
theorem Contiguous.after_eq_nil {entry : Entry} (hc : Contiguous (entries ++ [entry]))
    (h : Compatible (entries ++ [entry])) {before after joined : List (List String × Value)}
    (hrows : entries.map toRow = before ++ after) (hjoins : Table.JoinsAt entry.toRow before after joined) :
    after = [] := by
  by_contra hafter
  obtain ⟨scope, hne, hleads, ⟨earlier, he, hep⟩, later, hl, hlp⟩ := hjoins.scope hafter
  obtain ⟨first, rest, rfl, rfl, rfl⟩ := List.map_eq_append_iff.1 hrows
  obtain ⟨x, hx, rfl⟩ := List.mem_map.1 he
  obtain ⟨y, hy, rfl⟩ := List.mem_map.1 hl
  have hlast : entry ∈ first ++ rest ++ [entry] := List.mem_append_right _ (List.mem_singleton_self _)
  have hxmem : x ∈ first ++ rest := List.mem_append_left _ hx
  have hapart := h.apart (List.mem_append_left _ hxmem) hlast (h.path_ne_last hxmem)
  have hkeys : ∀ key ∈ scope, Path.isKey key = true := fun key hkey => h.isKey hlast key (hleads.subset hkey)
  have hscope : Path.segments (Path.join scope) = scope := Path.segments_join hne hkeys
  -- neither the new entry nor the earlier one lies at the scope itself, since they are apart
  have hbelow : ∀ {path : String}, scope <+: Path.segments path → scope ≠ Path.segments path →
      Path.Below (Path.join scope) path := by
    intro path hp hnot
    refine (Path.prefix_segments_iff.1 (hscope.symm ▸ hp)).resolve_left fun heq => hnot ?_
    rw [← heq, hscope]
  have hxbelow := hbelow hep fun heq => hapart.1 (heq ▸ hleads)
  have hebelow := hbelow hleads fun heq => hapart.2 (heq ▸ hep)
  have hsub : [x, y, entry].Sublist (first ++ rest ++ [entry]) :=
    ((List.singleton_sublist.2 hx).append (List.singleton_sublist.2 hy)).append (List.Sublist.refl [entry])
  have hybelow := hc _ x y entry hsub hxbelow hebelow
  exact hlp (hscope ▸ Path.prefix_segments_iff.2 (Or.inr hybelow))

end Entry

namespace Table

variable {limit : Int} {entries : List Entry}

theorem ofEntries_concat (entries : List Entry) (entry : Entry) : ofEntries (entries ++ [entry]) =
    ofEntries entries >>= plant entry (Path.segments entry.path) := by
  rw [ofEntries, ofEntries, List.foldlM_append]
  refine bind_congr fun tree => ?_
  rw [List.foldlM_cons]
  exact bind_pure _

/-- **Planting some leaves one after the other gives their rows**, in their order if those below each scope stand
together. -/
theorem exists_assembled (h : Entry.Compatible entries)
    (hd : ∀ entry ∈ entries, (Path.segments entry.path).length ≤ limit) :
    ∃ tree, ofEntries entries = .ok tree ∧ Tidy limit tree ∧ (rows tree).Perm (entries.map Entry.toRow) ∧
      (Entry.Contiguous entries → rows tree = entries.map Entry.toRow) := by
  induction entries using List.reverseRecOn with
  | nil => exact ⟨[], rfl, .nil, .refl _, fun _ => rfl⟩
  | append_singleton entries entry ih =>
    rw [List.forall_mem_append] at hd
    obtain ⟨tree, hassemble, htidy, hperm, hrows⟩ := ih h.of_append hd.1
    have hlast : entry ∈ entries ++ [entry] := List.mem_append_right _ (List.mem_singleton_self _)
    have hapart : ∀ row ∈ rows tree, Apart row.1 (Path.segments entry.path) := by
      intro row hrow
      obtain ⟨other, ho, rfl⟩ := List.mem_map.1 (hperm.mem_iff.1 hrow)
      exact h.apart (List.mem_append_left _ ho) hlast (h.path_ne_last ho)
    obtain ⟨tree', hplant, htidy', before, after, hold, hjoins⟩ :=
      exists_planted (h.isLeaf entry hlast) (Path.segments_ne_nil _) (h.isKey hlast) (hd.2 entry (by simp)) htidy hapart
    refine ⟨tree', by rw [ofEntries_concat, hassemble, ok_bind, hplant], htidy', ?_, fun hc => ?_⟩
    · rw [hjoins.joined_eq, List.map_append]
      refine List.perm_middle.trans (.trans ?_ List.perm_append_comm)
      exact .cons _ (hold ▸ hperm)
    · have hsame := hrows hc.of_append
      obtain rfl := hc.after_eq_nil h (hsame.symm.trans hold) hjoins
      rw [List.append_nil] at hold
      rw [hjoins.joined_eq, ← hold, hsame, List.map_append]
      rfl

end Table

/-! ## The leaves of a tree stand together -/

/-- Some keys lead on to others, which are these and more. -/
def LeadOn (keys keys' : List String) : Prop := keys <+: keys' ∧ keys ≠ keys'

theorem leadOn_cons_iff {key : String} {keys keys' : List String} :
    LeadOn (key :: keys) (key :: keys') ↔ LeadOn keys keys' := by
  simp [LeadOn]

theorem Path.below_iff_leadOn {above path : String} : Below above path ↔ LeadOn (segments above) (segments path) := by
  rw [LeadOn, prefix_segments_iff]
  constructor
  · rintro ⟨rest, rfl⟩
    refine ⟨Or.inr ⟨rest, rfl⟩, fun h => segments_ne_nil rest ?_⟩
    rw [under, segments_append] at h
    exact List.self_eq_append_right.1 h
  · rintro ⟨rfl | hbelow, hne⟩
    · exact absurd rfl hne
    · exact hbelow

instance (keys keys' : List String) : Decidable (LeadOn keys keys') := inferInstanceAs (Decidable (_ ∧ _))

instance (above path : String) : Decidable (Path.Below above path) := decidable_of_iff' _ Path.below_iff_leadOn

/-- Some members of a list make a block of it. -/
def IsBlock {α : Type} (P : α → Prop) (xs : List α) : Prop :=
  ∃ before block after, xs = before ++ block ++ after ∧ (∀ x ∈ block, P x) ∧ ∀ x ∈ before ++ after, ¬ P x

theorem isBlock_of_forall {α : Type} {P : α → Prop} {xs : List α} (h : ∀ x ∈ xs, P x) : IsBlock P xs :=
  ⟨[], xs, [], (List.append_nil _).symm, h, fun _ hx => absurd hx List.not_mem_nil⟩

theorem isBlock_of_forall_not {α : Type} {P : α → Prop} {xs : List α} (h : ∀ x ∈ xs, ¬ P x) : IsBlock P xs := by
  refine ⟨xs, [], [], by simp, fun _ hx => absurd hx List.not_mem_nil, fun x hx => h x ?_⟩
  rwa [List.append_nil] at hx

/-- A member between two members of a block belongs to it. -/
theorem IsBlock.of_sublist {α : Type} {P : α → Prop} {xs : List α} (h : IsBlock P xs) {first between last : α}
    (hsub : [first, between, last].Sublist xs) (hfirst : P first) (hlast : P last) : P between := by
  obtain ⟨before, block, after, rfl, hblock, hother⟩ := h
  rw [List.forall_mem_append] at hother
  obtain ⟨front, back, heq, hfront, hback⟩ := List.sublist_append_iff.1 hsub
  obtain rfl : back = [] := by
    by_contra hne
    have hend : back.getLast hne = last := by
      have hlast? := congrArg List.getLast? heq
      rw [List.getLast?_append_of_ne_nil _ hne, List.getLast?_eq_some_getLast hne] at hlast?
      exact (Option.some.inj hlast?).symm
    exact hother.2 _ (hback.subset (List.getLast_mem hne)) (hend.symm ▸ hlast)
  rw [List.append_nil] at heq
  obtain ⟨front', middle, heq', hfront', hmiddle⟩ := List.sublist_append_iff.1 (heq ▸ hfront)
  cases front' with
  | cons x front' =>
    obtain ⟨rfl, -⟩ := List.cons.inj heq'
    exact absurd hfirst (hother.1 _ (hfront'.subset List.mem_cons_self))
  | nil =>
    rw [List.nil_append] at heq'
    subst heq'
    exact hblock _ (hmiddle.subset (by simp))

/-- The rows of a value below some keys are a block of its rows. -/
theorem Value.isBlock_rows {scope : List String} : ∀ (v : Value) {depth : Int}, v.isProper = true →
    v.fits depth = true → IsBlock (fun row => LeadOn scope row.1) v.rows := by
  induction scope with
  | nil =>
    intro v depth hp hf
    rcases v.isLeaf_or_table_of_fits hf with hleaf | ⟨items, rfl, hfits⟩
    · rw [(facts_of_isLeaf hleaf).2.2.2]
      exact isBlock_of_forall_not (by simp [LeadOn])
    · refine isBlock_of_forall fun row hrow => ⟨List.nil_prefix, ?_⟩
      rw [Value.rows] at hrow
      exact (Table.isKey_of_mem_rows items hfits row hrow).1.symm
  | cons key scope ih =>
    intro v depth hp hf
    rcases v.isLeaf_or_table_of_fits hf with hleaf | ⟨items, rfl, hfits⟩
    · rw [(facts_of_isLeaf hleaf).2.2.2]
      exact isBlock_of_forall_not (by simp [LeadOn])
    · rw [Value.isProper] at hp
      rw [Value.rows]
      have hnot : ∀ {row : List String × Value}, ¬ [key] <+: row.1 → ¬ LeadOn (key :: scope) row.1 :=
        fun hno h => hno (List.IsPrefix.trans ⟨scope, rfl⟩ h.1)
      cases hget : Table.get? items (.text key) with
      | none => exact isBlock_of_forall_not fun row hrow => hnot (Table.not_prefix_of_get?_none hfits hget row hrow)
      | some w =>
        obtain ⟨front, back, hapart, hrows, -⟩ := Table.rows_of_get? hp hfits hget
        obtain ⟨before, block, after, hw, hblock, hother⟩ :=
          ih w (Table.isProper_of_get? hp hget) (Table.fits_of_get? hfits hget)
        let below := List.map fun row : List String × Value => (key :: row.1, row.2)
        have hbelow : ∀ {rows : List (List String × Value)} {row}, row ∈ below rows →
            ∃ row' ∈ rows, (LeadOn (key :: scope) row.1 ↔ LeadOn scope row'.1) := by
          intro rows row hrow
          obtain ⟨row', hrow', rfl⟩ := List.mem_map.1 hrow
          exact ⟨row', hrow', leadOn_cons_iff⟩
        rw [List.forall_mem_append] at hapart hother
        refine ⟨front ++ below before, below block, below after ++ back, ?_, fun row hrow => ?_, ?_⟩
        · rw [hrows, Table.rowsBelow, hw]
          simp [below]
        · obtain ⟨row', hrow', hiff⟩ := hbelow hrow
          exact hiff.2 (hblock row' hrow')
        · simp only [List.forall_mem_append]
          refine ⟨⟨fun row hrow => hnot (hapart.1 row hrow), fun row hrow => ?_⟩, fun row hrow => ?_,
            fun row hrow => hnot (hapart.2 row hrow)⟩
          · obtain ⟨row', hrow', hiff⟩ := hbelow hrow
            exact fun h => hother.1 row' hrow' (hiff.1 h)
          · obtain ⟨row', hrow', hiff⟩ := hbelow hrow
            exact fun h => hother.2 row' hrow' (hiff.1 h)

namespace Table

variable {limit : Int} {entries : List Entry} {tree : Table}

/-- The rows of a tree are those of its leaves. -/
theorem map_toRow_leaves (h : tree.leaves limit = .ok entries) : entries.map Entry.toRow = rows tree := by
  obtain ⟨⟨-, hfits⟩, rfl⟩ := leaves_eq_ok_iff.1 h
  rw [List.map_map]
  refine (List.map_congr_left fun row hrow => ?_).trans (List.map_id _)
  obtain ⟨hne, hkeys⟩ := isKey_of_mem_rows tree hfits row hrow
  exact Prod.ext (Path.segments_join hne hkeys) rfl

/-- The leaves of a tree that lie below a scope stand together. -/
theorem contiguous_leaves (hp : isProper tree = true) (h : tree.leaves limit = .ok entries) :
    Entry.Contiguous entries := by
  intro scope first between last hsub hfirst hlast
  have hfits : (Value.table tree).fits limit = true :=
    wellFormed_iff_fits.1 (wellFormed_iff.2 (leaves_eq_ok_iff.1 h).1)
  have hblock : IsBlock (fun row => LeadOn (Path.segments scope) row.1) (Value.table tree).rows :=
    Value.isBlock_rows (.table tree) (by rwa [Value.isProper]) hfits
  have hrows : [first.toRow, between.toRow, last.toRow].Sublist (rows tree) :=
    map_toRow_leaves h ▸ hsub.map Entry.toRow
  rw [Path.below_iff_leadOn] at hfirst hlast ⊢
  exact hblock.of_sublist hrows hfirst hlast

theorem map_ofRow_toRow (entries : List Entry) : (entries.map Entry.toRow).map (Entry.ofRow []) = entries := by
  rw [List.map_map]
  refine (List.map_congr_left fun entry _ => ?_).trans (List.map_id _)
  simp [Entry.toRow, Entry.ofRow]

/-- **Assembling and listing leaves undo each other.** Entries that can be the leaves of one tree are assembled in any
order, and the leaves of the tree are the entries in some order: in theirs, if those below each scope stand next to each
other, as they do in every list of leaves. -/
theorem leaves_ofEntries (h : Entry.Compatible entries) (hone : 1 ≤ limit)
    (hd : ∀ entry ∈ entries, (Path.segments entry.path).length ≤ limit) :
    (∃ tree leaves, ofEntries entries = .ok tree ∧ tree.leaves limit = .ok leaves ∧ leaves.Perm entries ∧
      (Entry.Contiguous entries → leaves = entries)) ∧
      ∀ (tree : Table) (limit : Int) (leaves : List Entry), isProper tree = true → tree.leaves limit = .ok leaves →
        Entry.Contiguous leaves := by
  refine ⟨?_, fun _ _ _ hp hl => contiguous_leaves hp hl⟩
  obtain ⟨tree, hassemble, htidy, hperm, hrows⟩ := exists_assembled h hd
  refine ⟨tree, _, hassemble, leaves_eq_ok_iff.2 ⟨⟨hone, htidy.fits⟩, rfl⟩, ?_, fun hc => ?_⟩
  · exact map_ofRow_toRow entries ▸ hperm.map (Entry.ofRow [])
  · rw [hrows hc, map_ofRow_toRow]

/-- Entries of a scope with another one between them. -/
theorem leaves_ofEntries_menu :
    let entries : List Entry := [⟨"menu.open", .text "Open"⟩, ⟨"title", .int 1⟩, ⟨"menu.close", .text "Close"⟩]
    ∃ tree leaves, ofEntries entries = .ok tree ∧ tree.leaves 2 = .ok leaves ∧ leaves.Perm entries ∧
      leaves.map Entry.path = ["menu.open", "menu.close", "title"] := by
  intro entries
  have h : Entry.Compatible entries := by constructor <;> decide +kernel
  have hd : ∀ entry ∈ entries, (Path.segments entry.path).length ≤ (2 : Int) := by decide +kernel
  obtain ⟨⟨tree, leaves, hassemble, hleaves, hperm, -⟩, -⟩ := leaves_ofEntries h (by decide) hd
  refine ⟨tree, leaves, hassemble, hleaves, hperm, ?_⟩
  have hresult : (ofEntries entries >>= Table.leaves 2).toOption.map (List.map Entry.path) =
      some ["menu.open", "menu.close", "title"] := by decide +kernel
  rw [hassemble, ok_bind, hleaves] at hresult
  exact Option.some.inj hresult

/-- No entries make the empty tree. It is a table at the first level, so that it has no leaves where none is allowed. -/
theorem leaves_ofEntries_nil :
    Entry.Compatible [] ∧ (∀ entry ∈ [], (Path.segments (Entry.path entry)).length ≤ (0 : Int)) ∧
      ofEntries [] = .ok [] ∧ ∀ leaves, Table.leaves 0 [] ≠ .ok leaves := by
  refine ⟨⟨by simp, by simp, List.nodup_nil, by simp⟩, by simp, rfl, fun leaves h => ?_⟩
  cases h

end Table

end Phrasebook
