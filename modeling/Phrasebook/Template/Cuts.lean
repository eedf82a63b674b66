import Phrasebook.Text.Cut
import Phrasebook.Value.Display

/-!
# The placeholders of a text

A placeholder runs from an opening brace to the next closing brace; braces do not nest. What is left when no placeholder
follows is plain text, even if it holds braces.

* `Cuts.ofText` cuts a text at its placeholders, and `Cuts.render` puts it together again.
* `Cuts.names` are the names in the placeholders, `Cuts.blanks` counts the placeholders without a name.
* `Cuts.fill` puts values in the place of the placeholders that they are named for, if all of these can be written.
-/

namespace Phrasebook.Template

/-- A text cut at its placeholders: each with the text before it, and the text after the last one. -/
structure Cuts where
  slots : List (List Char × List Char)
  tail : List Char
  deriving DecidableEq

namespace Cuts

/-- Cuts a text at its placeholders. -/
def ofText (cs : List Char) : Cuts :=
  match _h : Text.cutAt? '{' cs with
  | none => ⟨[], cs⟩
  | some (before, inner) =>
    match _h' : Text.cutAt? '}' inner with
    | none => ⟨[], cs⟩
    | some (name, after) =>
      let rest := ofText after
      ⟨(before, name) :: rest.slots, rest.tail⟩
termination_by cs.length
decreasing_by
  have := Text.length_after_cutAt? _h
  have := Text.length_after_cutAt? _h'
  omega

/-- The text that the cuts came from, with each placeholder written as `showName` says. -/
def renderWith (showName : List Char → List Char) (c : Cuts) : List Char :=
  c.slots.flatMap (fun slot => slot.1 ++ showName slot.2) ++ c.tail

/-- A placeholder as it is written. -/
def slotText (name : List Char) : List Char := '{' :: name ++ ['}']

/-- The text that the cuts came from. -/
def render (c : Cuts) : List Char := c.renderWith slotText

/-- The names in the placeholders, in order. -/
def names (c : Cuts) : List String := ((c.slots.map (·.2)).filter (!·.isEmpty)).map String.ofList

/-- The number of placeholders without a name. -/
def blanks (c : Cuts) : Nat := c.slots.countP (·.2.isEmpty)

/-- What takes the place of a placeholder: the text of the value it is named for, if that can be written. A placeholder
without a value stays as it is. -/
def slotValue (values : Table) (name : List Char) : Option (List Char) :=
  match values.get? (.text (String.ofList name)) with
  | some v => v.shown?.map String.toList
  | none => some (slotText name)

/-- The text with values in the place of the placeholders, if all of these can be written. -/
def fill (values : Table) (c : Cuts) : Option (List Char) :=
  if c.slots.all fun slot => (slotValue values slot.2).isSome then
    some (c.renderWith fun name => (slotValue values name).getD [])
  else none

/-- Cutting loses nothing. -/
@[simp] theorem render_ofText (cs : List Char) : (ofText cs).render = cs := by
  induction h : cs.length using Nat.strongRecOn generalizing cs with
  | ind n ih =>
    rw [ofText]
    split
    · simp [render, renderWith]
    · next before inner hb =>
      split
      · simp [render, renderWith]
      · next name after ha =>
        have h₁ := (Text.cutAt?_eq_some hb).1
        have h₂ := (Text.cutAt?_eq_some ha).1
        have hl : after.length < n := by
          have := Text.length_after_cutAt? hb
          have := Text.length_after_cutAt? ha
          omega
        have := ih after.length hl after rfl
        simp only [render, renderWith] at this ⊢
        rw [List.flatMap_cons, List.append_assoc, this, h₁, h₂]
        simp [slotText]

end Cuts

end Phrasebook.Template
