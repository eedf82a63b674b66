import Phrasebook.Template.Basic
import Phrasebook.Proofs.Audit

/-!
# Texts with their placeholders filled

* `Filled` says what a text is filled to: each of its placeholders gives way to the text of the value it is named for.
* `Cuts.fill_eq_some_iff` and `fillText_eq_error_iff`: a text is filled unless a value in it cannot be written.
* `Selects` says what is filled of a text: all of it, or one clause of a directive, or nothing.
* `firstExact_eq_find?`: a clause is looked for up to the first one that settles the search (`Clause.settles`).
* `filled_of_fill`: with a value for each parameter of a text, filling leaves no named placeholder in what it selects.
-/

namespace Phrasebook.Template

variable {values : Table}

/-- The names of the parameters of a value; only a text has any. -/
def paramsOf : Value → List String
  | .text s => (ofText s).params
  | _ => []

/-- The parameters of a template that is read are those of the value. -/
theorem params_of_ofValue {path : String} {limit : Int} {value : Value} {t : Template}
    (h : ofValue path limit value = .ok t) : t.params = paramsOf value := by
  unfold ofValue at h
  split at h
  · split at h
    · cases h
    · cases h
      rfl
  · next hno =>
    cases h
    unfold paramsOf
    split
    · next s => exact absurd rfl (hno s)
    · rfl

/-! ## Cutting a text at its first placeholder -/

/-- A text has no opening brace, or its first one is never closed, or it begins with plain text and a placeholder. -/
theorem plain_or_unclosed_or_slot (cs : List Char) :
    '{' ∉ cs ∨ (∃ before after, cs = before ++ '{' :: after ∧ '{' ∉ before ∧ '}' ∉ after) ∨
      ∃ before name after, cs = before ++ '{' :: (name ++ '}' :: after) ∧ '{' ∉ before ∧ '}' ∉ name := by
  by_cases ho : '{' ∈ cs
  · obtain ⟨before, inner, rfl, hb⟩ := List.eq_append_cons_of_mem ho
    by_cases hc : '}' ∈ inner
    · obtain ⟨name, after, rfl, hn⟩ := List.eq_append_cons_of_mem hc
      exact Or.inr (Or.inr ⟨before, name, after, rfl, hb, hn⟩)
    · exact Or.inr (Or.inl ⟨before, inner, rfl, hb, hc⟩)
  · exact Or.inl ho

namespace Cuts

theorem ofText_of_not_mem {cs : List Char} (h : '{' ∉ cs) : ofText cs = ⟨[], cs⟩ := by
  rw [ofText]
  split
  · rfl
  · next hcut =>
    rw [(Text.cutAt?_eq_some hcut).1] at h
    exact absurd (by simp) h

theorem ofText_unclosed {before after : List Char} (hb : '{' ∉ before) (ha : '}' ∉ after) :
    ofText (before ++ '{' :: after) = ⟨[], before ++ '{' :: after⟩ := by
  have hopen := Text.cutAt?_append after hb
  rw [ofText]
  split
  · rfl
  · next hcut =>
    cases hopen.symm.trans hcut
    split
    · rfl
    · next hcut' =>
      rw [(Text.cutAt?_eq_some hcut').1] at ha
      exact absurd (by simp) ha

theorem ofText_slot {before name after : List Char} (hb : '{' ∉ before) (hn : '}' ∉ name) :
    ofText (before ++ '{' :: (name ++ '}' :: after)) =
      ⟨(before, name) :: (ofText after).slots, (ofText after).tail⟩ := by
  have hopen := Text.cutAt?_append (name ++ '}' :: after) hb
  have hclose := Text.cutAt?_append after hn
  rw [ofText]
  split
  · next hcut => cases hopen.symm.trans hcut
  · next hcut =>
    cases hopen.symm.trans hcut
    split
    · next hcut' => cases hclose.symm.trans hcut'
    · next hcut' =>
      cases hclose.symm.trans hcut'
      rfl

theorem mem_names_cons {before name tail : List Char} {slots : List (List Char × List Char)} {n : String} :
    n ∈ (⟨(before, name) :: slots, tail⟩ : Cuts).names ↔
      name ≠ [] ∧ n = String.ofList name ∨ n ∈ (⟨slots, tail⟩ : Cuts).names := by
  by_cases hn : name = [] <;> simp [names, hn]

theorem all_isSome_slotValue_iff {slots : List (List Char × List Char)} :
    (slots.all fun slot => (slotValue values slot.2).isSome) = true ↔
      ∀ slot ∈ slots, ∃ shown, slotValue values slot.2 = some shown := by
  simp only [List.all_eq_true, Option.isSome_iff_exists]

/-- Cuts are filled with what takes the place of each placeholder. -/
theorem fill_eq_some_iff {c : Cuts} {filled : List Char} : c.fill values = some filled ↔
    (∀ slot ∈ c.slots, ∃ shown, slotValue values slot.2 = some shown) ∧
      filled = c.renderWith fun name => (slotValue values name).getD [] := by
  rw [← all_isSome_slotValue_iff]
  unfold fill
  split
  · next h => exact ⟨fun he => ⟨h, (Option.some.inj he).symm⟩, fun ⟨_, he⟩ => he ▸ rfl⟩
  · next h => exact iff_of_false (fun he => by cases he) fun ⟨hall, _⟩ => h hall

/-- Cuts are not filled if the value of a placeholder cannot be written. -/
theorem fill_eq_none_iff {c : Cuts} : c.fill values = none ↔ ∃ slot ∈ c.slots, slotValue values slot.2 = none := by
  rw [← Option.not_isSome_iff_eq_none, Option.isSome_iff_exists]
  simp only [fill_eq_some_iff, exists_and_left, exists_eq, and_true, not_forall, ← Option.isSome_iff_exists,
    Option.not_isSome_iff_eq_none, exists_prop]

theorem fill_cons_eq_some_iff {before name tail filled : List Char} {slots : List (List Char × List Char)} :
    (⟨(before, name) :: slots, tail⟩ : Cuts).fill values = some filled ↔ ∃ shown rest,
      slotValue values name = some shown ∧ (⟨slots, tail⟩ : Cuts).fill values = some rest ∧
        filled = before ++ (shown ++ rest) := by
  simp only [fill_eq_some_iff, List.forall_mem_cons]
  constructor
  · rintro ⟨⟨⟨shown, hshown⟩, hslots⟩, rfl⟩
    exact ⟨shown, _, hshown, ⟨hslots, rfl⟩, by simp [renderWith, hshown]⟩
  · rintro ⟨shown, rest, hshown, ⟨hslots, rfl⟩, rfl⟩
    exact ⟨⟨⟨shown, hshown⟩, hslots⟩, by simp [renderWith, hshown]⟩

end Cuts

/-! ## Filling a text -/

/-- What stands in the place of a placeholder: the text of the value it is named for. Only a placeholder without a name
may be left as it is, if there is no value for it. -/
def Replaces (values : Table) (name shown : List Char) : Prop :=
  match values.get? (.text (String.ofList name)) with
  | some v => v.shown? = some (String.ofList shown)
  | none => name = [] ∧ shown = Cuts.slotText name

/-- A text and what it is filled to. Placeholders are filled from left to right, each up to its first closing brace;
what follows the last one is kept, even an opening brace that is never closed. -/
inductive Filled (values : Table) : List Char → List Char → Prop
  | plain {cs : List Char} : '{' ∉ cs → Filled values cs cs
  | unclosed {before after : List Char} : '{' ∉ before → '}' ∉ after →
      Filled values (before ++ '{' :: after) (before ++ '{' :: after)
  | slot {before name shown after filled : List Char} : '{' ∉ before → '}' ∉ name → Replaces values name shown →
      Filled values after filled →
      Filled values (before ++ '{' :: (name ++ '}' :: after)) (before ++ (shown ++ filled))

theorem replaces_of_slotValue {name shown : List Char}
    (h : name ≠ [] → values.contains (.text (String.ofList name)) = true)
    (hshown : Cuts.slotValue values name = some shown) : Replaces values name shown := by
  unfold Cuts.slotValue at hshown
  unfold Replaces
  cases hv : values.get? (.text (String.ofList name)) with
  | some v =>
    rw [hv] at hshown
    obtain ⟨text, htext, rfl⟩ := Option.map_eq_some_iff.1 hshown
    show v.shown? = some (String.ofList text.toList)
    rw [String.ofList_toList, htext]
  | none =>
    rw [hv] at hshown
    refine ⟨?_, (Option.some.inj hshown).symm⟩
    by_contra hne
    have := h hne
    rw [Table.contains, hv] at this
    cases this

/-- With a value for each name in it, a text is filled. -/
theorem filled_of_fill_cuts {cs filled : List Char}
    (h : ∀ name ∈ (Cuts.ofText cs).names, values.contains (.text name) = true)
    (hfilled : (Cuts.ofText cs).fill values = some filled) : Filled values cs filled := by
  induction hn : cs.length using Nat.strongRecOn generalizing cs filled with
  | ind n ih =>
    rcases plain_or_unclosed_or_slot cs with ho | ⟨before, after, rfl, hb, ha⟩ | ⟨before, name, after, rfl, hb, hc⟩
    · rw [Cuts.ofText_of_not_mem ho] at hfilled
      cases hfilled
      exact .plain ho
    · rw [Cuts.ofText_unclosed hb ha] at hfilled
      cases hfilled
      exact .unclosed hb ha
    · rw [Cuts.ofText_slot hb hc] at h hfilled
      have hlen : after.length < n := by
        rw [← hn]
        simp
        omega
      have hname : name ≠ [] → values.contains (.text (String.ofList name)) = true := by
        intro hne
        exact h _ (Cuts.mem_names_cons.2 (Or.inl ⟨hne, rfl⟩))
      obtain ⟨shown, rest, hshown, hrest, rfl⟩ := Cuts.fill_cons_eq_some_iff.1 hfilled
      exact .slot hb hc (replaces_of_slotValue hname hshown)
        (ih after.length hlen (fun n hmem => h n (Cuts.mem_names_cons.2 (Or.inr hmem))) hrest rfl)

theorem fillText_eq_ok_iff {cs : List Char} {text : String} :
    fillText values cs = .ok text ↔ (Cuts.ofText cs).fill values = some text.toList := by
  unfold fillText
  cases (Cuts.ofText cs).fill values with
  | none => exact iff_of_false (fun h => by cases h) fun h => by cases h
  | some filled => rw [Except.ok.injEq, Option.some.injEq, ← String.toList_inj, String.toList_ofList]

/-- A text is not filled if a value in it cannot be written, and for no other reason. -/
theorem fillText_eq_error_iff {cs : List Char} {fault : Fault} :
    fillText values cs = .error fault ↔
      (∃ slot ∈ (Cuts.ofText cs).slots, Cuts.slotValue values slot.2 = none) ∧ fault = .unwritable := by
  rw [← Cuts.fill_eq_none_iff]
  unfold fillText
  cases (Cuts.ofText cs).fill values with
  | none => exact ⟨fun h => ⟨rfl, (Except.error.inj h).symm⟩, fun h => h.2 ▸ rfl⟩
  | some filled => exact iff_of_false (fun h => by cases h) fun h => by cases h.1

/-- A text whose names all have a value is filled, whatever else it holds. -/
theorem filled_of_fillText {cs : List Char} {text : String}
    (h : ∀ name ∈ (Cuts.ofText cs).names, values.contains (.text name) = true) (htext : fillText values cs = .ok text) :
    Filled values cs text.toList :=
  filled_of_fill_cuts h (fillText_eq_ok_iff.1 htext)

/-! ## Selecting what is filled -/

/-- What is filled of a text: all of it if it is no directive; of a directive the content of the clause for the number
that its parameter has, or nothing if no clause is for it. -/
inductive Selects (values : Table) (s : String) : List Char → Prop
  | whole : Directive.ofText? s.toList = none → Selects values s s.toList
  | clause {d : Directive} {count : Value} {c : Clause} : Directive.ofText? s.toList = some d →
      values.get? (.text (String.ofList d.parameter)) = some count → count.isNumber = true →
      d.select count = .ok (some c) → Selects values s c.content
  | nothing {d : Directive} {count : Value} : Directive.ofText? s.toList = some d →
      values.get? (.text (String.ofList d.parameter)) = some count → count.isNumber = true →
      d.select count = .ok none → Selects values s []

/-- The number of digits that a selector is written with. -/
def Selector.digitCount : Selector → Nat
  | .exact _ digits => digits.length
  | .other => 0

/-- Whether the search for the number of a count ends at a clause: its number has too many digits or is the count. -/
def Clause.settles (count : Value) (c : Clause) : Bool :=
  match c.selector with
  | .exact negative digits => Text.digitLimit < digits.length ||
      count.agrees (.int (if negative then -(Text.numeral digits : Int) else Text.numeral digits))
  | .other => false

/-- The clauses are searched up to the first one at which the search ends. -/
theorem firstExact_eq_find? {count : Value} {clauses : List Clause} :
    firstExact count clauses = match clauses.find? (Clause.settles count) with
      | none => .ok none
      | some c => if Text.digitLimit < c.selector.digitCount then .error (.tooManyDigits c.selector.digitCount)
        else .ok (some c) := by
  induction clauses with
  | nil => rfl
  | cons c clauses ih =>
    rw [firstExact, List.find?_cons, Clause.settles]
    cases hsel : c.selector with
    | other => exact ih
    | exact negative digits =>
      by_cases hlong : Text.digitLimit < digits.length
      · simp only [hlong, if_true, decide_true, Bool.true_or, hsel, Selector.digitCount]
      · simp only [hlong, if_false, decide_false, Bool.false_or]
        cases count.agrees (.int (if negative then -(Text.numeral digits : Int) else Text.numeral digits)) with
        | false => exact ih
        | true => simp only [if_true, hsel, Selector.digitCount, hlong, if_false]

theorem mem_of_firstExact {count : Value} {c : Clause} {clauses : List Clause}
    (h : firstExact count clauses = .ok (some c)) : c ∈ clauses := by
  rw [firstExact_eq_find?] at h
  split at h
  · cases h
  · next hfind =>
    split at h
    · cases h
    · cases h
      exact List.mem_of_find?_eq_some hfind

/-- The clause that is selected is one of the directive. -/
theorem mem_of_select {d : Directive} {count : Value} {c : Clause} (h : d.select count = .ok (some c)) :
    c ∈ d.clauses := by
  obtain ⟨first, hf, h⟩ := bind_eq_ok_iff.1 h
  cases first with
  | some clause =>
    cases h
    exact mem_of_firstExact hf
  | none => exact List.mem_of_find?_eq_some (Except.ok.inj h)

theorem ofText_of_directive {s : String} {d : Directive} (h : Directive.ofText? s.toList = some d) :
    ofText s = ofDirective d := by
  rw [ofText, h]

theorem ofText_of_no_directive {s : String} (h : Directive.ofText? s.toList = none) :
    (ofText s).directive = none ∧ (ofText s).params = (Cuts.ofText s.toList).names := by
  rw [ofText, h]
  exact ⟨rfl, rfl⟩

/-- The names in the content of a clause are parameters of the directive. -/
theorem mem_params_of_mem_clauses {d : Directive} {c : Clause} (hc : c ∈ d.clauses) {name : String}
    (hn : name ∈ (Cuts.ofText c.content).names) : name ∈ (ofDirective d).params := by
  refine List.mem_cons_of_mem _ (List.mem_flatMap.2 ⟨Cuts.ofText c.content, ?_, hn⟩)
  exact List.mem_map_of_mem hc

/-- **Nothing is left unfilled.** With a value for each parameter of a text, what it is filled to is what it selects
with the text of a value in the place of every named placeholder. -/
theorem filled_of_fill {s text : String} (hp : ∀ name ∈ paramsOf (.text s), values.contains (.text name) = true)
    (h : fill values (.text s) = .ok text) :
    ∃ selected, Selects values s selected ∧ Filled values selected text.toList := by
  rw [fill] at h
  rw [paramsOf] at hp
  cases hd : Directive.ofText? s.toList with
  | none =>
    obtain ⟨hno, hparams⟩ := ofText_of_no_directive hd
    rw [hparams] at hp
    rw [hno] at h
    exact ⟨s.toList, .whole hd, filled_of_fillText hp h⟩
  | some d =>
    rw [ofText_of_directive hd] at h hp
    have hpar : values.contains (.text (String.ofList d.parameter)) = true := hp _ List.mem_cons_self
    obtain ⟨count, hcount⟩ := Option.isSome_iff_exists.1 hpar
    simp only [ofDirective, hcount, Option.getD_some] at h
    split at h
    · next hnum =>
      obtain ⟨found, hf, h⟩ := bind_eq_ok_iff.1 h
      cases found with
      | some c =>
        refine ⟨c.content, .clause hd hcount hnum hf, filled_of_fillText (fun name hn => hp name ?_) h⟩
        exact mem_params_of_mem_clauses (mem_of_select hf) hn
      | none =>
        cases h
        exact ⟨[], .nothing hd hcount hnum hf, .plain (by simp)⟩
    · cases h

end Phrasebook.Template
