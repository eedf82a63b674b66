import Phrasebook.Proofs.Template.Reading

/-!
# The one way to cut a text at its placeholders

A text is plain texts and placeholders in turn, and a tail. Which they are is said without a search (`Cuts.Divides`):
no plain text before a placeholder has an opening brace, no name has a closing one, and no opening brace in the tail has
a closing one behind it.

* `Cuts.divides_nil_iff` and `Cuts.divides_cons_iff` go along the placeholders.
* `Cuts.divides_iff`: a text is divided in one way only, which is how it is cut.
* `divided_once_and_filled`: the names in a text are those of its one division, and filling it writes the plain texts
  with what there is for the names between them, unless a value for one of these cannot be written.
-/

namespace Phrasebook.Template

/-- Behind the first occurrence of a character lies what is behind any other one. -/
theorem suffix_behind_first {c : Char} {before after before' after' : List Char} (hc : c ∉ before)
    (h : before ++ c :: after = before' ++ c :: after') : after' <:+ after := by
  rcases List.append_eq_append_iff.1 h with ⟨middle, -, hrest⟩ | ⟨middle, rfl, hrest⟩
  · cases middle with
    | nil => exact (List.cons.inj hrest).2 ▸ List.suffix_refl after
    | cons _ middle =>
      rw [(List.cons.inj hrest).2]
      exact ⟨middle ++ [c], by simp⟩
  · cases middle with
    | nil => exact (List.cons.inj hrest).2 ▸ List.suffix_refl after'
    | cons _ middle =>
      obtain ⟨rfl, -⟩ := List.cons.inj hrest
      exact absurd List.mem_append_cons_self hc

namespace Cuts

/-- A text is some plain texts, each with a placeholder behind it, and a tail, and the braces tell where each of them
ends. -/
structure Divides (c : Cuts) (cs : List Char) : Prop where
  text : cs = c.slots.flatMap (fun slot => slot.1 ++ '{' :: (slot.2 ++ ['}'])) ++ c.tail
  plain : ∀ slot ∈ c.slots, '{' ∉ slot.1
  named : ∀ slot ∈ c.slots, '}' ∉ slot.2
  ended : ∀ before after, c.tail = before ++ '{' :: after → '}' ∉ after

variable {cs before name tail : List Char} {slots : List (List Char × List Char)}

theorem divides_nil_iff :
    (⟨[], tail⟩ : Cuts).Divides cs ↔ cs = tail ∧ ∀ before after, cs = before ++ '{' :: after → '}' ∉ after := by
  constructor
  · rintro ⟨rfl, -, -, hended⟩
    exact ⟨rfl, hended⟩
  · rintro ⟨rfl, hended⟩
    exact ⟨rfl, by simp, by simp, hended⟩

/-- A division begins with a plain text and a placeholder, and the others divide what is behind these. -/
theorem divides_cons_iff : (⟨(before, name) :: slots, tail⟩ : Cuts).Divides cs ↔ '{' ∉ before ∧ '}' ∉ name ∧
    ∃ after, cs = before ++ '{' :: (name ++ '}' :: after) ∧ (⟨slots, tail⟩ : Cuts).Divides after := by
  constructor
  · rintro ⟨rfl, hplain, hnamed, hended⟩
    obtain ⟨hb, hplain⟩ := List.forall_mem_cons.1 hplain
    obtain ⟨hn, hnamed⟩ := List.forall_mem_cons.1 hnamed
    exact ⟨hb, hn, _, by simp, rfl, hplain, hnamed, hended⟩
  · rintro ⟨hb, hn, after, rfl, rfl, hplain, hnamed, hended⟩
    exact ⟨by simp, List.forall_mem_cons.2 ⟨hb, hplain⟩, List.forall_mem_cons.2 ⟨hn, hnamed⟩, hended⟩

/-- The cuts of a text divide it. -/
theorem divides_ofText (cs : List Char) : (ofText cs).Divides cs := by
  induction hn : cs.length using Nat.strongRecOn generalizing cs with
  | ind n ih =>
    rcases plain_or_unclosed_or_slot cs with ho | ⟨before, after, rfl, hb, ha⟩ | ⟨before, name, after, rfl, hb, hc⟩
    · rw [ofText_of_not_mem ho, divides_nil_iff]
      refine ⟨rfl, ?_⟩
      rintro before after rfl
      exact absurd List.mem_append_cons_self ho
    · rw [ofText_unclosed hb ha, divides_nil_iff]
      exact ⟨rfl, fun before' after' he hmem => ha ((suffix_behind_first hb he).mem hmem)⟩
    · rw [ofText_slot hb hc, divides_cons_iff]
      have hlen : after.length < n := by
        rw [← hn]
        simp
        omega
      exact ⟨hb, hc, after, rfl, ih after.length hlen after rfl⟩

/-- What divides a text are its cuts. -/
theorem Divides.ofText_eq {c : Cuts} (h : c.Divides cs) : ofText cs = c := by
  obtain ⟨slots, tail⟩ := c
  induction slots generalizing cs with
  | nil =>
    obtain ⟨rfl, hended⟩ := divides_nil_iff.1 h
    rcases plain_or_unclosed_or_slot cs with ho | ⟨before, after, rfl, hb, ha⟩ | ⟨before, name, after, rfl, hb, hc⟩
    · exact ofText_of_not_mem ho
    · exact ofText_unclosed hb ha
    · exact absurd (by simp) (hended before (name ++ '}' :: after) rfl)
  | cons slot slots ih =>
    obtain ⟨before, name⟩ := slot
    obtain ⟨hb, hn, after, rfl, hafter⟩ := divides_cons_iff.1 h
    rw [ofText_slot hb hn, ih hafter]

/-- **A text is divided in exactly one way**, and that is how it is cut. -/
theorem divides_iff {c : Cuts} : c.Divides cs ↔ c = ofText cs := by
  constructor
  · intro h
    exact h.ofText_eq.symm
  · rintro rfl
    exact divides_ofText cs

variable {values : Table}

/-- A placeholder that there is no value for is left as it is. -/
theorem slotValue_of_not_contains {name : List Char} (h : values.contains (.text (String.ofList name)) = false) :
    slotValue values name = some (slotText name) := by
  unfold slotValue
  rw [Table.contains, Option.isSome_eq_false_iff, Option.isNone_iff_eq_none] at h
  rw [h]

/-- Nothing takes the place of a placeholder exactly if the value it is named for cannot be written. -/
theorem slotValue_eq_none_iff {name : List Char} : slotValue values name = none ↔
    ∃ v, values.get? (.text (String.ofList name)) = some v ∧ v.isWritable = false := by
  unfold slotValue
  cases values.get? (.text (String.ofList name)) with
  | none => exact iff_of_false (fun h => by cases h) fun ⟨_, h, _⟩ => by cases h
  | some v => simp only [Option.map_eq_none_iff, Value.shown?_eq_none_iff, Option.some.injEq, exists_eq_left']

end Cuts

variable {values : Table} {cs : List Char}

/-- A text is filled with what takes the place of each of its placeholders. -/
theorem fillText_eq_of_slotValue {shown : List Char → List Char}
    (h : ∀ slot ∈ (Cuts.ofText cs).slots, Cuts.slotValue values slot.2 = some (shown slot.2)) :
    fillText values cs = .ok (String.ofList ((Cuts.ofText cs).renderWith shown)) := by
  rw [fillText_eq_ok_iff, String.toList_ofList, Cuts.fill_eq_some_iff]
  refine ⟨fun slot hslot => ⟨_, h slot hslot⟩, Cuts.renderWith_congr fun slot hslot => ?_⟩
  rw [h slot hslot, Option.getD_some]

/-- Where there is no value for any name in it, a text is left as it is. -/
theorem fillText_of_not_contains
    (h : ∀ slot ∈ (Cuts.ofText cs).slots, values.contains (.text (String.ofList slot.2)) = false) :
    fillText values cs = .ok (String.ofList cs) := by
  rw [fillText_eq_of_slotValue fun slot hslot => Cuts.slotValue_of_not_contains (h slot hslot)]
  exact congrArg (Except.ok ∘ String.ofList) (Cuts.render_ofText cs)

/-- **A text is divided once, and it is scanned and filled by that division.** What is scanned are the names of its
placeholders, as far as they have one, in their order, and the number of the others. What is filled is the text with
what there is for each name in the place of its placeholder, whatever braces that has; without a value for any of the
names it is the text itself. It is not filled exactly if a value for a name has a whole number with too many digits. -/
theorem divided_once_and_filled (cs : List Char) :
    (∃! c : Cuts, c.Divides cs) ∧ ∀ c : Cuts, c.Divides cs →
      (Cuts.ofText cs).names = ((c.slots.map (·.2)).filter (· ≠ [])).map String.ofList ∧
      (Cuts.ofText cs).blanks = (c.slots.map (·.2)).count [] ∧
      ∀ values : Table,
        (∀ shown : List Char → List Char,
          (∀ slot ∈ c.slots, Cuts.slotValue values slot.2 = some (shown slot.2)) →
            fillText values cs = .ok (String.ofList (c.slots.flatMap (fun slot => slot.1 ++ shown slot.2) ++ c.tail))) ∧
        (∀ fault, fillText values cs = .error fault ↔ fault = .unwritable ∧
          ∃ slot ∈ c.slots, ∃ v, values.get? (.text (String.ofList slot.2)) = some v ∧ v.isWritable = false) ∧
        ((∀ slot ∈ c.slots, values.contains (.text (String.ofList slot.2)) = false) →
          fillText values cs = .ok (String.ofList cs)) := by
  refine ⟨⟨Cuts.ofText cs, Cuts.divides_ofText cs, fun c hc => Cuts.divides_iff.1 hc⟩, ?_⟩
  intro c hc
  obtain rfl := Cuts.divides_iff.1 hc
  refine ⟨?_, ?_, fun values => ⟨fun shown => fillText_eq_of_slotValue, fun fault => ?_, fillText_of_not_contains⟩⟩
  · rw [Cuts.names]
    refine congrArg _ (List.filter_congr fun name _ => ?_)
    cases name <;> rfl
  · rw [Cuts.blanks, List.count_eq_countP, List.countP_map]
    refine List.countP_congr fun slot _ => ?_
    rw [Function.comp_apply, List.isEmpty_iff, beq_iff_eq]
  · rw [fillText_eq_error_iff, and_comm]
    simp only [Cuts.slotValue_eq_none_iff]

/-- A closing brace that nothing opened, a name with an opening brace, a placeholder without a name and one that is
never closed; and a value that has braces. -/
theorem divided_once_and_filled_braces :
    let cs : List Char := ['}', 'a', '{', 'x', '{', 'y', '}', '{', '}', '{', 'z']
    let c : Cuts := ⟨[(['}', 'a'], ['x', '{', 'y']), ([], [])], ['{', 'z']⟩
    let values : Table := [(.text (String.ofList ['x', '{', 'y']), .text (String.ofList ['{', 'z', '}'])),
      (.text "z", .int 7)]
    c.Divides cs ∧ (Cuts.ofText cs).names = [String.ofList ['x', '{', 'y']] ∧ (Cuts.ofText cs).blanks = 1 ∧
      fillText values cs = .ok (String.ofList ['}', 'a', '{', 'z', '}', '{', '}', '{', 'z']) ∧
      fillText [(.text "z", .int 7)] cs = .ok (String.ofList cs) := by
  intro cs c values
  have hc : c.Divides cs := by
    refine ⟨by decide, by decide, by decide, ?_⟩
    intro before after h hmem
    have hno : '}' ∉ c.tail := by decide
    exact hno (h ▸ List.mem_append_right _ (List.mem_cons_of_mem _ hmem))
  obtain ⟨-, hall⟩ := divided_once_and_filled cs
  obtain ⟨hnames, hblanks, hfill⟩ := hall c hc
  let shown : List Char → List Char := fun name => if name = [] then ['{', '}'] else ['{', 'z', '}']
  exact ⟨hc, hnames, hblanks, (hfill values).1 shown (by decide +kernel), (hfill _).2.2 (by decide +kernel)⟩

/-- A text with a placeholder is not filled with a value that cannot be written. -/
theorem fillText_eq_unwritable {v : Value} (hv : v.isWritable = false) :
    fillText [(.text "n", v)] ['{', 'n', '}'] = .error .unwritable := by
  have hcuts : Cuts.ofText ['{', 'n', '}'] = ⟨[([], ['n'])], []⟩ := by decide +kernel
  rw [fillText_eq_error_iff, hcuts]
  exact ⟨⟨_, List.mem_cons_self, Cuts.slotValue_eq_none_iff.2 ⟨v, rfl, hv⟩⟩, rfl⟩

/-- **A whole number with too many digits is not written**, so that a text with a placeholder for it is not filled. -/
theorem long_number_is_not_filled :
    let values : Table := [(.text "n", .int Value.wholeLimit)]
    (⟨[([], ['n'])], []⟩ : Cuts).Divides ['{', 'n', '}'] ∧ values.contains (.text (String.ofList ['n'])) = true ∧
      fillText values ['{', 'n', '}'] = .error .unwritable := by
  have hc : (⟨[([], ['n'])], []⟩ : Cuts).Divides ['{', 'n', '}'] := by
    rw [Cuts.divides_iff]
    decide +kernel
  exact ⟨hc, rfl, fillText_eq_unwritable Value.isWritable_wholeLimit⟩

end Phrasebook.Template
