import Phrasebook.Number.Shortest
import Phrasebook.Text.Quoted
import Phrasebook.Value.Basic

/-!
# The text of a value

A value is written in three ways.

* `Value.quoted` is for messages: the text of a value can be told from the value.
* `Value.plain` is for addresses: a text stands for itself.
* `Value.shown?` is for readers of a phrase: nothing is an empty text, and a number without a fraction is written as a
  whole number. A value with a whole number of more than 4300 digits has no such text.
-/

namespace Phrasebook.Value

mutual

/-- The value as a message shows it. -/
def quoted : Value → String
  | null => "None"
  | bool b => if b then "True" else "False"
  | int n => toString n
  | float x => x.toText
  | text s => Text.quote s
  | date d => d.quoted
  | moment m => m.quoted
  | clock t => t.quoted
  | bytes bs => Text.quoteBytes bs
  | list vs => "[" ++ ", ".intercalate (quotedAll vs) ++ "]"
  | table items => "\x7b" ++ ", ".intercalate (quotedItems items) ++ "\x7d"

/-- The values of a list as a message shows them. -/
def quotedAll : List Value → List String
  | [] => []
  | v :: vs => quoted v :: quotedAll vs

/-- The items of a table as a message shows them. -/
def quotedItems : List (Value × Value) → List String
  | [] => []
  | (k, v) :: items => (quoted k ++ ": " ++ quoted v) :: quotedItems items

end

/-- The value as a text of its own. -/
def plain : Value → String
  | text s => s
  | date d => d.toText
  | moment m => m.toText " "
  | clock t => t.toText
  | v => v.quoted

/-! ## In a phrase -/

/-- The least number with too many digits. -/
@[irreducible] def wholeLimit : Nat := Nat.pow 10 Text.digitLimit

mutual

/-- Whether every whole number in a value has few enough digits. -/
def isWritable : Value → Bool
  | int n => n.natAbs < wholeLimit
  | list vs => areWritable vs
  | table items => itemsAreWritable items
  | _ => true

/-- Whether every whole number in the values of a list has few enough digits. -/
def areWritable : List Value → Bool
  | [] => true
  | v :: vs => isWritable v && areWritable vs

/-- Whether every whole number in the items of a table has few enough digits. -/
def itemsAreWritable : List (Value × Value) → Bool
  | [] => true
  | (k, v) :: items => isWritable k && isWritable v && itemsAreWritable items

end

/-- The value as it would stand in a phrase, however many digits that takes. -/
def spelled : Value → String
  | null => ""
  | float x => match x.toInt? with
    | some n => toString n
    | none => x.toText
  | v => v.plain

/-- The value as it stands in a phrase, if it can be written. -/
def shown? (v : Value) : Option String := if v.isWritable then some v.spelled else none

theorem wholeLimit_pos : 0 < wholeLimit := by
  unfold wholeLimit
  generalize Text.digitLimit = digits
  exact Nat.pow_pos (by decide)

/-- The least number with too many digits cannot be written. -/
theorem isWritable_wholeLimit : (int wholeLimit).isWritable = false := by
  rw [isWritable, Int.natAbs_natCast]
  exact decide_eq_false (Nat.lt_irrefl _)

theorem shown?_eq_none_iff {v : Value} : v.shown? = none ↔ v.isWritable = false := by
  unfold shown?
  cases v.isWritable <;> simp

end Phrasebook.Value
