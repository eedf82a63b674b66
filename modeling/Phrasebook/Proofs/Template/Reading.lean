import Phrasebook.Proofs.Template.Filling

/-!
# What filling reads

A text is filled with the values of its parameters. The one thing that it reads besides is what there is for the empty
name: a placeholder without a name is no parameter, but a value for the empty name takes its place.

* `AgreeOn`: two tables have the same values for some names, or none.
* `Cuts.renderWith_eq_iff`: writing cuts in two ways that differ for no name but the empty one gives two texts exactly
  if the cuts have a placeholder without a name.
* `Cuts.fill_eq_iff`: the same for filling cuts, which fails if a value cannot be written.
* `fill_eq_iff_of_agreeOn`: tables that agree on the parameters of a text select the same of it, or give the same fault,
  and fill it differently exactly if what they select has a placeholder without a name that they fill differently, and
  has values for its names that can be written.
-/

namespace Phrasebook.Template

variable {values values' : Table} {s : String}

/-- Two tables have the same values for some names, and lack the same ones of them. -/
def AgreeOn (names : List String) (values values' : Table) : Prop :=
  ∀ name ∈ names, values.get? (.text name) = values'.get? (.text name)

theorem AgreeOn.symm {names : List String} (h : AgreeOn names values values') : AgreeOn names values' values :=
  fun name hn => (h name hn).symm

/-! ## Writing cuts in two ways -/

namespace Cuts

variable {f g : List Char → List Char}

theorem renderWith_cons (f : List Char → List Char) (before name : List Char) (slots : List (List Char × List Char))
    (tail : List Char) :
    renderWith f ⟨(before, name) :: slots, tail⟩ = before ++ (f name ++ renderWith f ⟨slots, tail⟩) := by
  simp [renderWith]

theorem blanks_cons (before name : List Char) (slots : List (List Char × List Char)) (tail : List Char) :
    blanks ⟨(before, name) :: slots, tail⟩ = blanks ⟨slots, tail⟩ + if name = [] then 1 else 0 := by
  simp [blanks, List.countP_cons]

/-- The lengths of two ways of writing differ by what they write for the placeholders without a name. -/
theorem length_renderWith {slots : List (List Char × List Char)} (tail : List Char)
    (h : ∀ slot ∈ slots, slot.2 ≠ [] → f slot.2 = g slot.2) :
    (renderWith f ⟨slots, tail⟩).length + blanks ⟨slots, tail⟩ * (g []).length =
      (renderWith g ⟨slots, tail⟩).length + blanks ⟨slots, tail⟩ * (f []).length := by
  induction slots with
  | nil => simp [renderWith, blanks]
  | cons slot slots ih =>
    obtain ⟨before, name⟩ := slot
    obtain ⟨hname, hslots⟩ := List.forall_mem_cons.1 h
    have ih := ih hslots
    simp only [renderWith_cons, blanks_cons, List.length_append]
    by_cases hn : name = []
    · subst hn
      simp only [if_true, Nat.add_mul, Nat.one_mul]
      omega
    · rw [hname hn]
      simp only [hn, if_false, Nat.add_zero]
      omega

/-- Two ways of writing that are equally long for a placeholder without a name, and give the same text, write it the
same. -/
theorem eq_of_renderWith_eq {slots : List (List Char × List Char)} {tail : List Char}
    (h : ∀ slot ∈ slots, slot.2 ≠ [] → f slot.2 = g slot.2) (hl : (f []).length = (g []).length)
    (hb : blanks ⟨slots, tail⟩ ≠ 0) (he : renderWith f ⟨slots, tail⟩ = renderWith g ⟨slots, tail⟩) : f [] = g [] := by
  induction slots with
  | nil => exact absurd rfl hb
  | cons slot slots ih =>
    obtain ⟨before, name⟩ := slot
    obtain ⟨hname, hslots⟩ := List.forall_mem_cons.1 h
    rw [renderWith_cons, renderWith_cons] at he
    have he := List.append_cancel_left he
    by_cases hn : name = []
    · subst hn
      exact (List.append_inj he hl).1
    · rw [blanks_cons, if_neg hn] at hb
      rw [hname hn] at he
      exact ih hslots hb (List.append_cancel_left he)

/-- Cuts are written alike in two ways that agree on their names. -/
theorem renderWith_congr {c : Cuts} (h : ∀ slot ∈ c.slots, f slot.2 = g slot.2) :
    c.renderWith f = c.renderWith g := by
  unfold renderWith
  congr 1
  exact List.flatMap_congr fun slot hslot => by rw [h slot hslot]

/-- **Cuts tell two ways of writing apart only by their blanks.** -/
theorem renderWith_eq_iff {c : Cuts} (h : ∀ slot ∈ c.slots, slot.2 ≠ [] → f slot.2 = g slot.2) :
    c.renderWith f = c.renderWith g ↔ c.blanks = 0 ∨ f [] = g [] := by
  constructor
  · intro he
    by_cases hb : c.blanks = 0
    · exact Or.inl hb
    · have hlength := length_renderWith c.tail h
      rw [show renderWith f ⟨c.slots, c.tail⟩ = renderWith g ⟨c.slots, c.tail⟩ from he] at hlength
      have hl : (f []).length = (g []).length :=
        (Nat.eq_of_mul_eq_mul_left (Nat.pos_of_ne_zero hb) (Nat.add_left_cancel hlength)).symm
      exact Or.inr (eq_of_renderWith_eq h hl hb he)
  · intro hor
    have hall : ∀ slot ∈ c.slots, f slot.2 = g slot.2 := by
      intro slot hslot
      by_cases hn : slot.2 = []
      · rcases hor with hb | he
        · have := List.countP_eq_zero.1 hb slot hslot
          simp [hn] at this
        · rw [hn, he]
      · exact h slot hslot hn
    exact renderWith_congr hall

/-- Cuts are filled alike with tables that agree on what takes the place of each placeholder. -/
theorem fill_congr {c : Cuts} (h : ∀ slot ∈ c.slots, slotValue values slot.2 = slotValue values' slot.2) :
    c.fill values = c.fill values' := by
  have hrender : (c.renderWith fun name => (slotValue values name).getD []) =
      c.renderWith fun name => (slotValue values' name).getD [] :=
    renderWith_congr fun slot hslot => by rw [h slot hslot]
  refine Option.ext fun filled => ?_
  rw [fill_eq_some_iff, fill_eq_some_iff, hrender]
  refine and_congr_left fun _ => forall_congr' fun slot => ?_
  exact forall_congr' fun hslot => by rw [h slot hslot]

theorem exists_blank {c : Cuts} (hb : c.blanks ≠ 0) : ∃ slot ∈ c.slots, slot.2 = [] := by
  by_contra hno
  exact hb (List.countP_eq_zero.2 fun slot hslot hempty => hno ⟨slot, hslot, List.isEmpty_iff.1 hempty⟩)

theorem ne_nil_of_blanks_eq_zero {c : Cuts} (hb : c.blanks = 0) {slot : List Char × List Char}
    (hslot : slot ∈ c.slots) : slot.2 ≠ [] :=
  fun hn => List.countP_eq_zero.1 hb slot hslot (List.isEmpty_iff.2 hn)

/-- Where all the names agree and have values that can be written, cuts with a blank are filled differently with
different values for it. -/
theorem slotValue_nil_eq_of_fill_eq {c : Cuts}
    (h : ∀ slot ∈ c.slots, slot.2 ≠ [] → slotValue values slot.2 = slotValue values' slot.2) (hb : c.blanks ≠ 0)
    (hw : ∀ slot ∈ c.slots, slot.2 ≠ [] → slotValue values slot.2 ≠ none) (he : c.fill values = c.fill values') :
    slotValue values [] = slotValue values' [] := by
  obtain ⟨blank, hblank, hnil⟩ := exists_blank hb
  cases hf : c.fill values with
  | none =>
    obtain ⟨slot, hslot, hnone⟩ := fill_eq_none_iff.1 hf
    obtain ⟨slot', hslot', hnone'⟩ := fill_eq_none_iff.1 (he.symm.trans hf)
    have hn : slot.2 = [] := not_not.1 fun hn => hw slot hslot hn hnone
    have hn' : slot'.2 = [] := not_not.1 fun hn => hw slot' hslot' hn ((h slot' hslot' hn).trans hnone')
    rw [← hn, hnone, hn, ← hn', hnone']
  | some filled =>
    obtain ⟨hall, hfilled⟩ := fill_eq_some_iff.1 hf
    obtain ⟨hall', hfilled'⟩ := fill_eq_some_iff.1 (he.symm.trans hf)
    obtain ⟨shown, hshown⟩ := hnil ▸ hall blank hblank
    obtain ⟨shown', hshown'⟩ := hnil ▸ hall' blank hblank
    have hnamed : ∀ slot ∈ c.slots, slot.2 ≠ [] →
        (slotValue values slot.2).getD [] = (slotValue values' slot.2).getD [] :=
      fun slot hslot hn => by rw [h slot hslot hn]
    have hgetD := ((renderWith_eq_iff hnamed).1 (hfilled.symm.trans hfilled')).resolve_left hb
    rw [hshown, hshown'] at hgetD ⊢
    exact congrArg some hgetD

/-- **Filling tells apart two tables that agree on the names only by the blanks**, and not even by these if a value for
a name cannot be written. -/
theorem fill_eq_iff {c : Cuts}
    (h : ∀ slot ∈ c.slots, slot.2 ≠ [] → slotValue values slot.2 = slotValue values' slot.2) :
    c.fill values = c.fill values' ↔ c.blanks = 0 ∨ slotValue values [] = slotValue values' [] ∨
      ∃ slot ∈ c.slots, slot.2 ≠ [] ∧ slotValue values slot.2 = none := by
  constructor
  · intro he
    by_cases hb : c.blanks = 0
    · exact Or.inl hb
    · by_cases hw : ∃ slot ∈ c.slots, slot.2 ≠ [] ∧ slotValue values slot.2 = none
      · exact Or.inr (Or.inr hw)
      · refine Or.inr (Or.inl (slotValue_nil_eq_of_fill_eq h hb (fun slot hslot hn hnone => ?_) he))
        exact hw ⟨slot, hslot, hn, hnone⟩
  · rintro (hb | he | ⟨slot, hslot, hn, hnone⟩)
    · exact fill_congr fun slot hslot => h slot hslot (ne_nil_of_blanks_eq_zero hb hslot)
    · refine fill_congr fun slot hslot => ?_
      by_cases hn : slot.2 = []
      · rw [hn, he]
      · exact h slot hslot hn
    · rw [fill_eq_none_iff.2 ⟨slot, hslot, hnone⟩,
        fill_eq_none_iff.2 ⟨slot, hslot, (h slot hslot hn).symm.trans hnone⟩]

/-- A slot with a name is one of the names. -/
theorem mem_names_of_mem_slots {c : Cuts} {slot : List Char × List Char} (h : slot ∈ c.slots) (hn : slot.2 ≠ []) :
    String.ofList slot.2 ∈ c.names := by
  refine List.mem_map_of_mem (List.mem_filter.2 ⟨List.mem_map_of_mem h, ?_⟩)
  simpa using hn

end Cuts

theorem fillText_eq_fillText_iff {cs : List Char} :
    fillText values cs = fillText values' cs ↔ (Cuts.ofText cs).fill values = (Cuts.ofText cs).fill values' := by
  unfold fillText
  cases (Cuts.ofText cs).fill values <;> cases (Cuts.ofText cs).fill values' <;> simp [String.ofList_inj]

/-- What is read to fill a text: tables that agree on the names in it fill it differently exactly if it has a placeholder
without a name that they fill differently, and the values for its names can be written. -/
theorem fillText_eq_iff {cs : List Char} (h : AgreeOn (Cuts.ofText cs).names values values') :
    fillText values cs = fillText values' cs ↔
      (Cuts.ofText cs).blanks = 0 ∨ Cuts.slotValue values [] = Cuts.slotValue values' [] ∨
        ∃ slot ∈ (Cuts.ofText cs).slots, slot.2 ≠ [] ∧ Cuts.slotValue values slot.2 = none := by
  rw [fillText_eq_fillText_iff, Cuts.fill_eq_iff]
  intro slot hslot hn
  unfold Cuts.slotValue
  rw [h _ (Cuts.mem_names_of_mem_slots hslot hn)]

/-! ## Selecting in two ways -/

theorem fillText_nil : fillText values [] = .ok "" := by
  rw [fillText, Cuts.ofText_of_not_mem (by simp)]
  rfl

/-- What is selected of a text is filled. -/
theorem Selects.fill_eq {selected : List Char} (h : Selects values s selected) :
    fill values (.text s) = fillText values selected := by
  cases h with
  | whole hd => rw [fill, (ofText_of_no_directive hd).1]
  | clause hd hc hn hs =>
    simp only [fill, ofText_of_directive hd, ofDirective, hc, Option.getD_some, hn, hs, if_true]
    rfl
  | nothing hd hc hn hs =>
    simp only [fill, ofText_of_directive hd, ofDirective, hc, Option.getD_some, hn, hs, if_true, fillText_nil]
    rfl

/-- Something is selected of a text, or there is a fault, which depends on the parameters alone. -/
theorem selects_or_error (h : AgreeOn (ofText s).params values values') :
    (∃ selected, Selects values s selected) ∨
      ∃ fault, fill values (.text s) = .error fault ∧ fill values' (.text s) = .error fault := by
  cases hd : Directive.ofText? s.toList with
  | none => exact Or.inl ⟨s.toList, .whole hd⟩
  | some d =>
    rw [ofText_of_directive hd] at h
    have hcount := h _ List.mem_cons_self
    simp only [fill, ofText_of_directive hd, ofDirective, ← hcount]
    by_cases hn : ((values.get? (.text (String.ofList d.parameter))).getD .null).isNumber = true
    · obtain ⟨count, hc⟩ : ∃ count, values.get? (.text (String.ofList d.parameter)) = some count := by
        cases hg : values.get? (.text (String.ofList d.parameter)) with
        | none => rw [hg] at hn; cases hn
        | some count => exact ⟨count, rfl⟩
      rw [hc, Option.getD_some] at hn
      simp only [hc, Option.getD_some, hn, if_true]
      cases hs : d.select count with
      | error fault => exact Or.inr ⟨fault, rfl, rfl⟩
      | ok found =>
        cases found with
        | some c => exact Or.inl ⟨c.content, .clause hd hc hn hs⟩
        | none => exact Or.inl ⟨[], .nothing hd hc hn hs⟩
    · simp only [hn, Bool.false_eq_true, if_false]
      exact Or.inr ⟨_, rfl, rfl⟩

/-- What is selected depends on the parameters alone. -/
theorem Selects.of_agreeOn {selected : List Char} (hs : Selects values s selected)
    (h : AgreeOn (ofText s).params values values') : Selects values' s selected := by
  cases hs with
  | whole hd => exact .whole hd
  | clause hd hc hn hs =>
    rw [ofText_of_directive hd] at h
    exact .clause hd ((h _ List.mem_cons_self).symm.trans hc) hn hs
  | nothing hd hc hn hs =>
    rw [ofText_of_directive hd] at h
    exact .nothing hd ((h _ List.mem_cons_self).symm.trans hc) hn hs

/-- The names in what is selected are parameters. -/
theorem Selects.mem_params {selected : List Char} (hs : Selects values s selected) {name : String}
    (hn : name ∈ (Cuts.ofText selected).names) : name ∈ (ofText s).params := by
  cases hs with
  | whole hd => rwa [(ofText_of_no_directive hd).2]
  | clause hd _ _ hs =>
    rw [ofText_of_directive hd]
    exact mem_params_of_mem_clauses (mem_of_select hs) hn
  | nothing =>
    rw [Cuts.ofText_of_not_mem (by simp)] at hn
    cases hn

/-- **Besides its parameters a text reads the empty name, and that only for its blanks.** With tables that agree on its
parameters the same is selected, and faults are the same but for that of a value that cannot be written. What is filled
is the same exactly if what is selected has no blank, or the tables fill it the same, or a value for a name cannot be
written. -/
theorem fill_eq_iff_of_agreeOn (h : AgreeOn (ofText s).params values values') :
    (∀ fault, fault ≠ .unwritable → (fill values (.text s) = .error fault ↔ fill values' (.text s) = .error fault)) ∧
      (∀ selected, Selects values s selected ↔ Selects values' s selected) ∧
      (fill values (.text s) = fill values' (.text s) ↔ ∀ selected, Selects values s selected →
        (Cuts.ofText selected).blanks = 0 ∨ Cuts.slotValue values [] = Cuts.slotValue values' [] ∨
          ∃ slot ∈ (Cuts.ofText selected).slots, slot.2 ≠ [] ∧ Cuts.slotValue values slot.2 = none) := by
  have hfilled : ∀ selected, Selects values s selected → (fill values (.text s) = fill values' (.text s) ↔
      (Cuts.ofText selected).blanks = 0 ∨ Cuts.slotValue values [] = Cuts.slotValue values' [] ∨
        ∃ slot ∈ (Cuts.ofText selected).slots, slot.2 ≠ [] ∧ Cuts.slotValue values slot.2 = none) := by
    intro selected hs
    rw [hs.fill_eq, (hs.of_agreeOn h).fill_eq]
    exact fillText_eq_iff fun name hn => h name (hs.mem_params hn)
  refine ⟨fun fault hne => ?_, fun selected => ⟨fun hs => hs.of_agreeOn h, fun hs => hs.of_agreeOn h.symm⟩, ?_⟩
  · rcases selects_or_error h with ⟨selected, hs⟩ | ⟨fault', he, he'⟩
    · rw [hs.fill_eq, (hs.of_agreeOn h).fill_eq, fillText_eq_error_iff, fillText_eq_error_iff]
      exact iff_of_false (fun hf => hne hf.2) fun hf => hne hf.2
    · rw [he, he']
  · constructor
    · intro he selected hs
      exact (hfilled selected hs).1 he
    · intro hall
      rcases selects_or_error h with ⟨selected, hs⟩ | ⟨fault, he, he'⟩
      · exact (hfilled selected hs).2 (hall selected hs)
      · rw [he, he']

/-- Two tables that differ in what they have for the empty name, and a directive of which a clause with a blank is
selected. -/
theorem fill_eq_iff_of_agreeOn_blank :
    let s := "{n, plural, =0 {none} other {{n} of {}}}"
    let values : Table := [(.text "n", .int 2), (.text "", .text "x")]
    let values' : Table := [(.text "box", .text "red"), (.text "n", .int 2)]
    AgreeOn (ofText s).params values values' ∧ (fill values (.text s)).toOption = some "2 of x" ∧
      (fill values' (.text s)).toOption = some "2 of {}" ∧
      ∃ selected, Selects values s selected ∧ Selects values' s selected ∧ (Cuts.ofText selected).blanks ≠ 0 ∧
        Cuts.slotValue values [] ≠ Cuts.slotValue values' [] := by
  intro s values values'
  have hparams : (ofText s).params = ["n", "n"] := by decide +kernel
  have h : AgreeOn (ofText s).params values values' := by
    intro name hn
    rw [hparams] at hn
    obtain rfl : name = "n" := by simpa using hn
    rfl
  have hfill : (fill values (.text s)).toOption = some "2 of x" := by decide +kernel
  have hfill' : (fill values' (.text s)).toOption = some "2 of {}" := by decide +kernel
  refine ⟨h, hfill, hfill', ?_⟩
  obtain ⟨-, hselects, hiff⟩ := fill_eq_iff_of_agreeOn h
  have hne : ¬ fill values (.text s) = fill values' (.text s) := by
    intro he
    rw [he, hfill'] at hfill
    simp at hfill
  rw [hiff] at hne
  simp only [not_forall, not_or] at hne
  obtain ⟨selected, hs, hb, hv, -⟩ := hne
  exact ⟨selected, hs, (hselects selected).1 hs, hb, hv⟩

/-- **A blank is read.** The text of one blank names no parameter, and what it is filled to depends on the table. -/
theorem blank_is_read :
    (ofText "{}").params = [] ∧ (fill [] (.text "{}")).toOption = some "{}" ∧
      (fill [(.text "", .text "x")] (.text "{}")).toOption = some "x" := by
  decide +kernel

end Phrasebook.Template
