import Phrasebook.Proofs.Book.Answering
import Phrasebook.Proofs.Template.Reading
import Phrasebook.Proofs.Value.Alike

/-!
# Filling with alike values

* `Cuts.renderWith_eq_iff_of_length`: two ways of writing that are equally long for every placeholder give the same text
  exactly if they write every placeholder the same.
* `Selects.of_alike`: tables of alike values select the same of a text.
* `fill_alike`: they cannot fill a value, either of them, or they fill it the same exactly if for each placeholder in
  what is selected the two values state the same offset from universal time.
-/

namespace Phrasebook.Template

variable {values values' : Table}

/-! ## Ways of writing of the same lengths -/

namespace Cuts

variable {f g : List Char → List Char}

/-- **Ways of writing of the same lengths differ where a placeholder does.** -/
theorem renderWith_eq_iff_of_length {slots : List (List Char × List Char)} {tail : List Char}
    (hl : ∀ slot ∈ slots, (f slot.2).length = (g slot.2).length) :
    renderWith f ⟨slots, tail⟩ = renderWith g ⟨slots, tail⟩ ↔ ∀ slot ∈ slots, f slot.2 = g slot.2 := by
  induction slots with
  | nil => simp [renderWith]
  | cons slot slots ih =>
    obtain ⟨before, name⟩ := slot
    obtain ⟨hname, hslots⟩ := List.forall_mem_cons.1 hl
    rw [renderWith_cons, renderWith_cons, List.append_cancel_left_eq, List.forall_mem_cons, ← ih hslots]
    constructor
    · intro h
      exact List.append_inj h hname
    · rintro ⟨hf, hrest⟩
      simp only at hf
      rw [hf, hrest]

/-- In the place of a placeholder neither of two alike values can be written, or their texts are equally long, and the
same exactly if the values state the same offset. -/
theorem slotValue_alike (h : values.Alike values') (name : List Char) :
    (slotValue values name = none ∧ slotValue values' name = none) ∨
      ∃ shown shown', slotValue values name = some shown ∧ slotValue values' name = some shown' ∧
        shown.length = shown'.length ∧
        (shown = shown' ↔ values.offsetAt (String.ofList name) = values'.offsetAt (String.ofList name)) := by
  unfold slotValue Table.offsetAt
  rcases h.none_or_some (String.ofList name) with ⟨hv, hw⟩ | ⟨v, w, hv, hw, ha⟩
  · simp only [hv, hw]
    exact Or.inr ⟨_, _, rfl, rfl, rfl, iff_of_true rfl trivial⟩
  · simp only [hv, hw, Option.bind_some, Value.shown?, ← ha.isWritable_eq]
    cases v.isWritable with
    | false => exact Or.inl ⟨rfl, rfl⟩
    | true =>
      refine Or.inr ⟨_, _, rfl, rfl, ?_, ?_⟩
      · rw [String.length_toList, String.length_toList, ha.length_spelled_eq]
      · rw [String.toList_inj, ha.spelled_eq_iff]

/-- **Alike values fill cuts alike**: neither of two tables fills them, or the texts are the same exactly if for each
placeholder the tables state the same offset. -/
theorem fill_alike (h : values.Alike values') (c : Cuts) : (c.fill values = none ∧ c.fill values' = none) ∨
    ∃ filled filled', c.fill values = some filled ∧ c.fill values' = some filled' ∧
      (filled = filled' ↔ ∀ slot ∈ c.slots,
        values.offsetAt (String.ofList slot.2) = values'.offsetAt (String.ofList slot.2)) := by
  cases hf : c.fill values with
  | none =>
    obtain ⟨slot, hslot, hnone⟩ := fill_eq_none_iff.1 hf
    refine Or.inl ⟨rfl, fill_eq_none_iff.2 ⟨slot, hslot, ?_⟩⟩
    rcases slotValue_alike h slot.2 with ⟨-, hnone'⟩ | ⟨shown, -, hshown, -⟩
    · exact hnone'
    · cases hnone.symm.trans hshown
  | some filled =>
    obtain ⟨hall, rfl⟩ := fill_eq_some_iff.1 hf
    have hslots : ∀ slot ∈ c.slots, ∃ shown shown', slotValue values slot.2 = some shown ∧
        slotValue values' slot.2 = some shown' ∧ shown.length = shown'.length ∧
        (shown = shown' ↔ values.offsetAt (String.ofList slot.2) = values'.offsetAt (String.ofList slot.2)) := by
      intro slot hslot
      obtain ⟨shown, hshown⟩ := hall slot hslot
      exact (slotValue_alike h slot.2).resolve_left fun hnone => by cases hnone.1.symm.trans hshown
    have hfilled : c.fill values' = some (c.renderWith fun name => (slotValue values' name).getD []) := by
      refine fill_eq_some_iff.2 ⟨fun slot hslot => ?_, rfl⟩
      obtain ⟨-, shown', -, hshown', -⟩ := hslots slot hslot
      exact ⟨shown', hshown'⟩
    refine Or.inr ⟨_, _, rfl, hfilled, ?_⟩
    rw [renderWith_eq_iff_of_length fun slot hslot => ?_]
    · refine forall_congr' fun slot => forall_congr' fun hslot => ?_
      obtain ⟨shown, shown', hshown, hshown', -, hiff⟩ := hslots slot hslot
      simp only [hshown, hshown', Option.getD_some, hiff]
    · obtain ⟨shown, shown', hshown, hshown', hlength, -⟩ := hslots slot hslot
      simp only [hshown, hshown', Option.getD_some, hlength]

end Cuts

/-- Alike values do not fill a text, either of them, or fill it the same exactly if for each of its placeholders they
state the same offset. -/
theorem fillText_alike (h : values.Alike values') (cs : List Char) :
    (fillText values cs = .error .unwritable ∧ fillText values' cs = .error .unwritable) ∨
      ∃ text text', fillText values cs = .ok text ∧ fillText values' cs = .ok text' ∧
        (text = text' ↔ ∀ slot ∈ (Cuts.ofText cs).slots,
          values.offsetAt (String.ofList slot.2) = values'.offsetAt (String.ofList slot.2)) := by
  unfold fillText
  rcases Cuts.fill_alike h (Cuts.ofText cs) with ⟨hf, hf'⟩ | ⟨filled, filled', hf, hf', hiff⟩
  · rw [hf, hf']
    exact Or.inl ⟨rfl, rfl⟩
  · rw [hf, hf']
    exact Or.inr ⟨_, _, rfl, rfl, String.ofList_inj.trans hiff⟩

/-! ## What alike values select -/

/-- Alike counts select the same clause, or none for the same reason. -/
theorem Directive.select_alike {count count' : Value} (h : count.Alike count') (d : Directive) :
    d.select count = d.select count' := by
  have hsettles : Clause.settles count = Clause.settles count' := by
    funext clause
    simp only [Clause.settles, h.agrees_int_eq]
  rw [select, select, firstExact_eq_find?, firstExact_eq_find?, hsettles]

/-- One thing at most is selected of a text. -/
theorem Selects.unique {s : String} {selected selected' : List Char} (hs : Selects values s selected)
    (hs' : Selects values s selected') : selected = selected' := by
  cases hs with
  | whole hd =>
    cases hs' with
    | whole => rfl
    | clause hd' => cases hd.symm.trans hd'
    | nothing hd' => cases hd.symm.trans hd'
  | clause hd hc hn hs =>
    cases hs' with
    | whole hd' => cases hd.symm.trans hd'
    | clause hd' hc' _ hs' =>
      cases hd.symm.trans hd'
      cases hc.symm.trans hc'
      cases hs.symm.trans hs'
      rfl
    | nothing hd' hc' _ hs' =>
      cases hd.symm.trans hd'
      cases hc.symm.trans hc'
      cases hs.symm.trans hs'
  | nothing hd hc hn hs =>
    cases hs' with
    | whole hd' => cases hd.symm.trans hd'
    | clause hd' hc' _ hs' =>
      cases hd.symm.trans hd'
      cases hc.symm.trans hc'
      cases hs.symm.trans hs'
    | nothing => rfl

/-- Alike values select the same of a text. -/
theorem Selects.of_alike {s : String} {selected : List Char} (hs : Selects values s selected)
    (h : values.Alike values') : Selects values' s selected := by
  -- the count of a directive is alike on both sides, so the same clause is for it
  have counted : ∀ {name : String} {count : Value}, values.get? (.text name) = some count →
      ∃ count', values'.get? (.text name) = some count' ∧ count.Alike count' := by
    intro name count hc
    rcases h.none_or_some name with ⟨hv, -⟩ | ⟨v, w, hv, hw, ha⟩
    · cases hc.symm.trans hv
    · cases hc.symm.trans hv
      exact ⟨w, hw, ha⟩
  cases hs with
  | whole hd => exact .whole hd
  | clause hd hc hn hs =>
    obtain ⟨count', hc', ha⟩ := counted hc
    exact .clause hd hc' (ha.isNumber_eq ▸ hn) ((Directive.select_alike ha _).symm.trans hs)
  | nothing hd hc hn hs =>
    obtain ⟨count', hc', ha⟩ := counted hc
    exact .nothing hd hc' (ha.isNumber_eq ▸ hn) ((Directive.select_alike ha _).symm.trans hs)

/-! ## Filling -/

/-- A name stands in a placeholder of what is filled of a value. -/
def Mentions (values : Table) (value : Value) (name : String) : Prop :=
  ∃ s selected, value = .text s ∧ Selects values s selected ∧
    ∃ slot ∈ (Cuts.ofText selected).slots, String.ofList slot.2 = name

/-- A fault of filling is got over. -/
theorem escapes_of_fill {value : Value} {fault : Fault} (h : fill values value = .error fault) :
    Book.escapes fault = false := by
  refine Fault.escapes_of_isCaught ?_
  unfold Fault.isCaught
  rcases kind_of_fill h with hk | hk <;> rw [hk]

/-- **Alike values fill alike.** Of a value that they cannot fill, either of them, both faults are got over; else the
two texts are the same exactly if for each name in a placeholder the values state the same offset. -/
theorem fill_alike (h : values.Alike values') (value : Value) :
    (∃ fault fault', fill values value = .error fault ∧ fill values' value = .error fault' ∧
        Book.escapes fault = false ∧ Book.escapes fault' = false) ∨
      ∃ text text', fill values value = .ok text ∧ fill values' value = .ok text' ∧
        (text = text' ↔ ∀ name, Mentions values value name → values.offsetAt name = values'.offsetAt name) := by
  by_cases ht : ∃ s, value = .text s
  · obtain ⟨s, rfl⟩ := ht
    by_cases hsel : ∃ selected, Selects values s selected
    · obtain ⟨selected, hs⟩ := hsel
      rw [hs.fill_eq, (hs.of_alike h).fill_eq]
      rcases fillText_alike h selected with ⟨hf, hf'⟩ | ⟨text, text', ht, ht', hiff⟩
      · exact Or.inl ⟨_, _, hf, hf', rfl, rfl⟩
      · refine Or.inr ⟨text, text', ht, ht', hiff.trans ?_⟩
        constructor
        · rintro hall name ⟨s', selected', hv, hs', slot, hslot, rfl⟩
          cases hv
          obtain rfl : selected = selected' := hs.unique hs'
          exact hall slot hslot
        · intro hall slot hslot
          exact hall _ ⟨s, selected, rfl, hs, slot, hslot, rfl⟩
    · have hsel' : ¬∃ selected, Selects values' s selected := by
        rintro ⟨selected, hs⟩
        exact hsel ⟨selected, hs.of_alike h.symm⟩
      obtain ⟨fault, he, -⟩ := (selects_or_error fun name _ => (rfl : _ = values.get? (.text name))).resolve_left hsel
      obtain ⟨fault', he', -⟩ :=
        (selects_or_error fun name _ => (rfl : _ = values'.get? (.text name))).resolve_left hsel'
      exact Or.inl ⟨fault, fault', he, he', escapes_of_fill he, escapes_of_fill he'⟩
  · have hsame : fill values value = fill values' value := by
      cases value with
      | text s => exact absurd ⟨s, rfl⟩ ht
      | _ => rfl
    cases hf : fill values value with
    | error fault =>
      exact Or.inl ⟨fault, fault, rfl, hsame ▸ hf, escapes_of_fill hf, escapes_of_fill hf⟩
    | ok text =>
      refine Or.inr ⟨text, text, rfl, hsame ▸ hf, iff_of_true rfl ?_⟩
      rintro name ⟨s, -, hv, -⟩
      exact absurd ⟨s, hv⟩ ht

end Phrasebook.Template
