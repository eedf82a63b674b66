import Phrasebook.Computation
import Phrasebook.Document.Json
import Phrasebook.Document.Toml
import Phrasebook.Document.Yaml.Scalar
import Phrasebook.Value.Proper

/-!
# No key comes twice in a document

Whatever the format of a phrase file, no key comes twice in the table that is read from it, nor in a table in that one.

* `Table.isProper_ofList`: the table of a list of items keeps their keys apart.
* `Json.isProper_of_read`, `Toml.isProper_of_read?` and `Yaml.isProper_of_read` follow the readers.
-/

namespace Phrasebook

/-! ## Tables of items -/

theorem Binary64.same_comm (x y : Binary64) : x.same y = y.same x := by
  cases x with
  | finite negative m e canonical =>
    cases y with
    | finite negative' m' e' canonical' =>
      by_cases hm : m = m'
      · subst hm
        simp [same, eq_comm]
      · simp [same, hm, Ne.symm hm]
    | _ => rfl
  | _ => cases y <;> simp [same, eq_comm]

/-- Agreement of values that can be keys goes both ways. -/
theorem Value.agrees_comm {v w : Value} (hv : Yaml.isKey v = true) (hw : Yaml.isKey w = true) :
    v.agrees w = w.agrees v := by
  cases v <;> cases w <;> simp [agrees, agreesBy, agreesAsScalar, eq_comm, Binary64.same_comm, Yaml.isKey,
    Calendar.Moment.sameInstant] at hv hw ⊢

namespace Table

/-- The table of a list of items keeps their keys apart. -/
theorem isProper_ofList {items : List (Value × Value)}
    (h : ∀ item ∈ items, Yaml.isKey item.1 = true ∧ item.2.isProper = true) : isProper (ofList items) = true := by
  have hfold : ∀ (items : List (Value × Value)) (base : Table),
      (∀ item ∈ items, Yaml.isKey item.1 = true ∧ item.2.isProper = true) →
        isProper base = true → (∀ item ∈ base, Yaml.isKey item.1 = true) →
          isProper (items.foldl (fun t item => set item.1 item.2 t) base) = true := by
    intro items
    induction items with
    | nil => exact fun base _ hb _ => hb
    | cons item items ih =>
      intro base hitems hb hkeys
      obtain ⟨⟨hk, hv⟩, hitems⟩ := List.forall_mem_cons.1 hitems
      refine ih _ hitems (isProper_set_of_comm hb (fun old hold => Value.agrees_comm (hkeys old hold) hk) hv) ?_
      intro item' hitem'
      rcases key_of_mem_set hitem' with hkey | ⟨old, hold, hkey⟩
      · rw [hkey]
        exact hk
      · rw [← hkey]
        exact hkeys old hold
  exact hfold items [] h rfl fun item hitem => (by cases hitem)

end Table

/-- What is read as one of some words is the value of one. -/
theorem isProper_of_findSome? {words : List (List Char × Value)} (hw : ∀ item ∈ words, item.2.isProper = true)
    {cs rest : List Char} {v : Value}
    (h : (words.findSome? fun (word, v) => (Text.after? word cs).map fun rest => (v, rest)) = some (v, rest)) :
    v.isProper = true := by
  obtain ⟨item, hitem, h⟩ := List.exists_of_findSome?_eq_some h
  obtain ⟨rest', -, h⟩ := Option.map_eq_some_iff.1 h
  cases h
  exact hw item hitem

/-! ## JSON -/

namespace Json

theorem isProper_of_cutWord? {cs rest : List Char} {v : Value} (h : cutWord? cs = some (v, rest)) :
    v.isProper = true :=
  isProper_of_findSome? (by decide +kernel) h

theorem isProper_of_cutNumber {cs rest : List Char} {v : Value} (h : cutNumber cs = .ok (v, rest)) :
    v.isProper = true := by
  obtain ⟨⟨whole, rest'⟩, -, h⟩ := bind_eq_ok_iff.1 h
  dsimp only at h
  split at h
  · split at h
    · cases h
    · cases h
      rfl
  · obtain ⟨d, -, h⟩ := bind_eq_ok_iff.1 h
    cases h
    rfl

/-- No key comes twice in a value that is read, and members that are read have texts for keys. -/
theorem isProper_of_cut (fuel : Nat) :
    (∀ {cs rest v}, cutValue fuel cs = .ok (v, rest) → v.isProper = true) ∧
      ∀ {cs rest items}, cutMembers fuel cs = .ok (items, rest) →
        ∀ item ∈ items, Yaml.isKey item.1 = true ∧ item.2.isProper = true := by
  induction fuel with
  | zero => exact ⟨fun h => (by cases h), fun h => (by cases h)⟩
  | succ fuel ih =>
    obtain ⟨ihv, ihm⟩ := ih
    constructor
    · intro cs rest v h
      unfold cutValue at h
      split at h
      · obtain ⟨text, -, h⟩ := bind_eq_ok_iff.1 h
        cases h
        rfl
      · split at h
        · cases h
          rfl
        · obtain ⟨vs, -, h⟩ := bind_eq_ok_iff.1 h
          cases h
          rfl
      · split at h
        · cases h
          rfl
        · obtain ⟨⟨items, rest'⟩, hitems, h⟩ := bind_eq_ok_iff.1 h
          cases h
          exact Table.isProper_ofList (ihm hitems)
      · split at h
        · next hword =>
          cases h
          exact isProper_of_cutWord? hword
        · exact isProper_of_cutNumber h
    · intro cs rest items h
      unfold cutMembers at h
      split at h
      · obtain ⟨⟨key, cs⟩, -, h⟩ := bind_eq_ok_iff.1 h
        dsimp only at h
        split at h
        · obtain ⟨⟨v, cs⟩, hv, h⟩ := bind_eq_ok_iff.1 h
          dsimp only at h
          have hitem : Yaml.isKey (.text (String.ofList key)) = true ∧ v.isProper = true := ⟨rfl, ihv hv⟩
          split at h
          · cases h
            exact fun item hmem => (List.mem_singleton.1 hmem) ▸ hitem
          · obtain ⟨⟨items', cs⟩, hitems, h⟩ := bind_eq_ok_iff.1 h
            cases h
            exact List.forall_mem_cons.2 ⟨hitem, ihm hitems⟩
          · cases h
        · cases h
      · cases h

theorem isProper_of_read {s : String} {v : Value} (h : read s = .ok v) : v.isProper = true := by
  obtain ⟨⟨w, rest⟩, hw, h⟩ := bind_eq_ok_iff.1 h
  dsimp only at h
  split at h
  · cases h
    exact (isProper_of_cut _).1 hw
  · cases h

end Json

/-! ## TOML -/

namespace Toml

theorem isProper_of_cutWord? {cs rest : List Char} {v : Value} (h : cutWord? cs = some (v, rest)) :
    v.isProper = true :=
  isProper_of_findSome? (by decide +kernel) h

theorem isProper_of_cutDate? {cs rest : List Char} {v : Value} (h : cutDate? cs = some (some (v, rest))) :
    v.isProper = true := by
  unfold cutDate? at h
  simp only [Option.bind_eq_bind, Option.bind_eq_some_iff] at h
  obtain ⟨⟨⟨y, m, d⟩, rest'⟩, -, h⟩ := h
  dsimp only at h
  split at h
  · cases h
  · split at h
    all_goals
      obtain ⟨date, -, h⟩ := Option.map_eq_some_iff.1 (Option.some.inj h)
      cases h
      rfl

theorem isProper_of_cutBased? {cs rest : List Char} {v : Value} (h : cutBased? cs = some (v, rest)) :
    v.isProper = true := by
  unfold cutBased? at h
  split at h
  all_goals
    first
    | cases h
    | obtain ⟨ds, -, h⟩ := Option.map_eq_some_iff.1 h
      cases h
      rfl

theorem isProper_of_cutDecimal? {cs rest : List Char} {v : Value} (h : cutDecimal? cs = some (v, rest)) :
    v.isProper = true := by
  unfold cutDecimal? at h
  dsimp only at h
  split at h
  all_goals
    obtain ⟨⟨whole, rest'⟩, -, h⟩ := Option.bind_eq_some_iff.1 h
    dsimp only at h
    split at h
    · cases h
      rfl
    · obtain ⟨d, -, h⟩ := Option.bind_eq_some_iff.1 h
      cases h
      rfl

theorem isProper_of_cutScalar? {cs rest : List Char} {v : Value} (h : cutScalar? cs = some (v, rest)) :
    v.isProper = true := by
  unfold cutScalar? at h
  split at h
  · next date hd =>
    subst h
    exact isProper_of_cutDate? hd
  · split at h
    · cases h
      rfl
    · rcases Option.or_eq_some_iff.1 h with h | ⟨-, h⟩
      · rcases Option.or_eq_some_iff.1 h with h | ⟨-, h⟩
        · exact isProper_of_cutBased? h
        · exact isProper_of_cutDecimal? h
      · exact isProper_of_cutWord? h

/-- A change of the table at the end of a row of keys keeps keys apart. -/
theorem isProper_of_within {enterArrays : Bool} {change : Table → Option Table}
    (hc : ∀ items items', Table.isProper items = true → change items = some items' → Table.isProper items' = true) :
    ∀ {keys : List String} {items items' : Table}, Table.isProper items = true →
      within enterArrays change keys items = some items' → Table.isProper items' = true := by
  intro keys
  induction keys with
  | nil => exact fun hp h => hc _ _ hp h
  | cons key keys ih =>
    intro items items' hp h
    unfold within at h
    split at h
    · obtain ⟨inner, hi, h⟩ := Option.map_eq_some_iff.1 h
      cases h
      exact Table.isProper_set_text hp key (ih rfl hi)
    · next inner hg =>
      obtain ⟨inner', hi, h⟩ := Option.map_eq_some_iff.1 h
      cases h
      exact Table.isProper_set_text hp key (ih (Table.isProper_of_get? hp hg) hi)
    · split at h
      · obtain ⟨inner, -, h⟩ := Option.map_eq_some_iff.1 h
        cases h
        exact Table.isProper_set_text hp key rfl
      · cases h
    · cases h

theorem isProper_of_addItem {key : String} {v : Value} (hv : v.isProper = true) (items items' : Table)
    (hp : Table.isProper items = true) (h : addItem key v items = some items') : Table.isProper items' = true := by
  unfold addItem at h
  split at h
  · cases h
  · cases h
    exact Table.isProper_set_text hp key hv

theorem isProper_of_addElement {key : String} (items items' : Table) (hp : Table.isProper items = true)
    (h : addElement key items = some items') : Table.isProper items' = true := by
  unfold addElement at h
  split at h
  · cases h
    exact Table.isProper_set_text hp key rfl
  · cases h
    exact Table.isProper_set_text hp key rfl
  · cases h

/-- No key comes twice in a value that is read. -/
theorem isProper_of_cut (fuel : Nat) :
    (∀ {cs rest v}, cutValue? fuel cs = some (v, rest) → v.isProper = true) ∧
      (∀ {frozen items items' cs rest}, Table.isProper items = true →
        cutInline? fuel frozen items cs = some (items', rest) → Table.isProper items' = true) ∧
      ∀ {cs key rest v}, cutItem? fuel cs = some (key, v, rest) → v.isProper = true := by
  induction fuel with
  | zero => exact ⟨fun h => (by cases h), fun _ h => (by cases h), fun h => (by cases h)⟩
  | succ fuel ih =>
    obtain ⟨ihv, ihi, iht⟩ := ih
    refine ⟨?_, ?_, ?_⟩
    · intro cs rest v h
      unfold cutValue? at h
      split at h
      · obtain ⟨text, -, h⟩ := Option.map_eq_some_iff.1 h
        cases h
        rfl
      · split at h
        · obtain ⟨vs, -, h⟩ := Option.map_eq_some_iff.1 h
          cases h
          rfl
        · split at h
          · cases h
            rfl
          · obtain ⟨⟨items, rest'⟩, hitems, h⟩ := Option.map_eq_some_iff.1 h
            cases h
            exact ihi rfl hitems
        · exact isProper_of_cutScalar? h
    · intro frozen items items' cs rest hp h
      unfold cutInline? at h
      simp only [Option.bind_eq_bind, Option.bind_eq_some_iff] at h
      obtain ⟨⟨key, v, rest'⟩, hitem, h⟩ := h
      dsimp only at h
      split at h
      · cases h
      · obtain ⟨items', hwithin, h⟩ := Option.bind_eq_some_iff.1 h
        have hp' := isProper_of_within (isProper_of_addItem (iht hitem)) hp hwithin
        split at h
        · cases h
          exact hp'
        · exact ihi hp' h
        · cases h
    · intro cs key rest v h
      unfold cutItem? at h
      simp only [Option.bind_eq_bind, Option.bind_eq_some_iff] at h
      obtain ⟨⟨key', cs⟩, -, h⟩ := h
      dsimp only at h
      split at h
      · obtain ⟨⟨w, rest'⟩, hv, h⟩ := Option.bind_eq_some_iff.1 h
        cases h
        exact ihv hv
      · cases h

/-- No key comes twice in the table of the statements so far. -/
def Draft.IsProper (d : Draft) : Prop := Table.isProper d.items = true

namespace Draft

variable {d d' : Draft} {key : List String}

theorem IsProper.openTable (hd : d.IsProper) (h : d.openTable key = some d') : d'.IsProper := by
  simp only [Draft.openTable, Option.bind_eq_bind] at h
  split at h
  · cases h
  · obtain ⟨items, hwithin, h⟩ := Option.bind_eq_some_iff.1 h
    cases h
    exact isProper_of_within (fun _ _ hp h => (by cases h; exact hp)) hd hwithin

theorem IsProper.openElement (hd : d.IsProper) (h : d.openElement key = some d') : d'.IsProper := by
  simp only [Draft.openElement, Option.bind_eq_bind] at h
  split at h
  · cases h
  · obtain ⟨items, hwithin, h⟩ := Option.bind_eq_some_iff.1 h
    cases h
    exact isProper_of_within isProper_of_addElement hd hwithin

theorem IsProper.add {v : Value} (hd : d.IsProper) (hv : v.isProper = true) (h : d.add key v = some d') :
    d'.IsProper := by
  simp only [Draft.add, Option.bind_eq_bind] at h
  split at h
  · cases h
  · split at h
    · cases h
    · obtain ⟨items, hwithin, h⟩ := Option.bind_eq_some_iff.1 h
      cases h
      exact isProper_of_within (isProper_of_addItem hv) hd hwithin

end Draft

theorem isProper_of_cutStatement? {d d' : Draft} {cs rest : List Char} (hd : d.IsProper)
    (h : cutStatement? d cs = some (d', rest)) : d'.IsProper := by
  unfold cutStatement? at h
  split at h
  · cases h
    exact hd
  · simp only [Option.bind_eq_bind, Option.bind_eq_some_iff] at h
    obtain ⟨⟨key, rest'⟩, -, opened, hopen, h⟩ := h
    split at h
    · cases h
      exact Draft.IsProper.openElement (d := d.settle) hd hopen
    · cases h
  · simp only [Option.bind_eq_bind, Option.bind_eq_some_iff] at h
    obtain ⟨⟨key, rest'⟩, -, opened, hopen, h⟩ := h
    split at h
    · cases h
      exact Draft.IsProper.openTable (d := d.settle) hd hopen
    · cases h
  · split at h
    · simp only [Option.bind_eq_bind, Option.bind_eq_some_iff] at h
      obtain ⟨⟨key, v, rest'⟩, hitem, added, hadd, h⟩ := h
      cases h
      exact hd.add ((isProper_of_cut _).2.2 hitem) hadd
    · split at h
      · cases h
        exact hd
      · cases h

theorem isProper_of_run {fuel : Nat} : ∀ {d d' : Draft} {cs : List Char}, d.IsProper → run fuel d cs = some d' →
    d'.IsProper := by
  induction fuel with
  | zero => exact fun _ h => (by cases h)
  | succ fuel ih =>
    intro d d' cs hd h
    simp only [run, Option.bind_eq_bind, Option.bind_eq_some_iff] at h
    obtain ⟨⟨next, rest⟩, hstatement, rest', -, h⟩ := h
    have hnext := isProper_of_cutStatement? hd hstatement
    split at h
    · cases h
      exact hnext
    · exact ih hnext h
    · cases h

theorem isProper_of_read? {s : String} {v : Value} (h : read? s = some v) : v.isProper = true := by
  obtain ⟨d, hrun, rfl⟩ := Option.map_eq_some_iff.1 h
  exact isProper_of_run (d := {}) rfl hrun

end Toml

/-! ## YAML -/

namespace Yaml

theorem isProper_of_number? {signed negative : Bool} {cs : List Char} {v : Value}
    (h : number? signed negative cs = some v) : v.isProper = true := by
  unfold number? at h
  dsimp only at h
  split at h
  · cases h
    rfl
  · split at h
    · cases h
      rfl
    · split at h
      · cases h
        rfl
      · obtain ⟨n, -, h⟩ := Option.map_eq_some_iff.1 h
        cases h
        rfl

theorem isProper_of_date? {cs : List Char} {v : Value} (h : date? cs = some (.ok v)) : v.isProper = true := by
  simp only [date?, Option.bind_eq_bind] at h
  obtain ⟨⟨y, cs⟩, -, h⟩ := Option.bind_eq_some_iff.1 h
  dsimp only at h
  split at h
  · obtain ⟨⟨m, cs⟩, -, h⟩ := Option.bind_eq_some_iff.1 h
    dsimp only at h
    split at h
    · obtain ⟨⟨d, cs⟩, -, h⟩ := Option.bind_eq_some_iff.1 h
      dsimp only at h
      split at h
      · split at h
        · obtain ⟨date, -, rfl⟩ := map_eq_ok_iff.1 (mapError_eq_ok_iff.1 (Option.some.inj h))
          rfl
        · cases h
      · obtain ⟨⟨⟨hour, minute, second, micro⟩, zone⟩, -, h⟩ := Option.bind_eq_some_iff.1 h
        have h := mapError_eq_ok_iff.1 (Option.some.inj h)
        dsimp only at h
        split at h
        all_goals
          obtain ⟨offset, -, h⟩ := bind_eq_ok_iff.1 h
          obtain ⟨date, -, h⟩ := bind_eq_ok_iff.1 h
          obtain ⟨clock, -, h⟩ := bind_eq_ok_iff.1 h
          cases h
          rfl
    · cases h
  · cases h

/-- The value of a plain scalar is not a table. -/
theorem isProper_of_resolve {cs : List Char} {v : Value} (h : resolve cs = .ok v) : v.isProper = true := by
  unfold resolve at h
  dsimp only at h
  split at h
  · next w hw =>
    cases h
    have hall : ∀ item ∈ words, item.2.isProper = true := by decide +kernel
    obtain ⟨before, after, hwords, -⟩ := List.lookup_eq_some_iff.1 hw
    refine hall (String.ofList cs, v) ?_
    rw [hwords]
    exact List.mem_append_right _ List.mem_cons_self
  · split at h
    · cases h
    · split at h
      · next w hw =>
        cases h
        split at hw <;> exact isProper_of_number? hw
      · cases hd : date? cs with
        | none =>
          rw [hd] at h
          cases h
          rfl
        | some date =>
          rw [hd, Option.getD_some] at h
          exact isProper_of_date? (h ▸ hd)

theorem isKey_of_keyOf {value : Node → Except Fault Value} {node : Node} {key : Value}
    (h : keyOf value node = .ok key) : isKey key = true := by
  unfold keyOf at h
  split at h
  · cases h
    rfl
  · obtain ⟨w, -, h⟩ := bind_eq_ok_iff.1 h
    split at h
    · next hw =>
      cases h
      exact hw
    · cases h

/-- No key comes twice in the value of a node. -/
theorem isProper_of_valueWithin {fuel : Nat} : ∀ {node : Node} {v : Value}, node.valueWithin fuel = .ok v →
    v.isProper = true := by
  induction fuel with
  | zero => exact fun h => (by cases h)
  | succ fuel ih =>
    intro node v h
    unfold Node.valueWithin at h
    split at h
    · split at h
      · exact isProper_of_resolve h
      · cases h
        rfl
    · obtain ⟨vs, -, rfl⟩ := map_eq_ok_iff.1 h
      rfl
    · split at h
      · cases h
      · obtain ⟨items, hitems, h⟩ := bind_eq_ok_iff.1 h
        cases h
        refine Table.isProper_ofList fun item hitem => ?_
        obtain ⟨⟨k, w⟩, -, hitem⟩ := exists_of_mapM_eq_ok hitems item hitem
        obtain ⟨key, hkey, hitem⟩ := bind_eq_ok_iff.1 hitem
        obtain ⟨value, hvalue, hitem⟩ := bind_eq_ok_iff.1 hitem
        cases hitem
        exact ⟨isKey_of_keyOf hkey, ih hvalue⟩

theorem isProper_of_read {s : String} {v : Value} (h : read s = .ok v) : v.isProper = true := by
  unfold read at h
  split at h
  · cases h
  · cases h
    rfl
  · exact isProper_of_valueWithin h

end Yaml

end Phrasebook
