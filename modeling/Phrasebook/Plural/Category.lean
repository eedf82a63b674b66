import Phrasebook.Fault

/-!
# Plural categories

The six categories of the plural rules, with their names in phrase files and the counts that are typical of them.

* `Category.ofName?` reads exactly the names that `Category.name` writes.
* `Category.hintsOf` joins the typical counts of some categories in ascending order.
-/

namespace Phrasebook.Plural

/-- A plural category. -/
inductive Category where
  | zero
  | one
  | two
  | few
  | many
  | other
  deriving DecidableEq, Repr

namespace Category

/-- The categories in the order in which messages list them. -/
def all : List Category := [zero, one, two, few, many, other]

/-- The name of a category. -/
def name : Category → String
  | zero => "zero"
  | one => "one"
  | two => "two"
  | few => "few"
  | many => "many"
  | other => "other"

/-- The category with a name. -/
def ofName? (name : String) : Option Category := all.find? (·.name = name)

/-- The category with a name, which is a fault if there is none. -/
def ofName (name : String) : Except Fault Category :=
  match ofName? name with
  | some category => .ok category
  | none => .error (.unknownCategory name)

/-- Counts that are typical of a category. They are advice: a call may use any number. -/
def hints : Category → List Nat
  | zero => [0]
  | one => [1, 21, 31, 41, 51, 61, 71, 81, 91, 101]
  | two => [2, 22, 32, 42, 52, 62, 72, 82, 92, 102]
  | few | many | other => []

/-- The counts that are typical of some of the categories, each once, in ascending order. -/
def hintsOf (categories : List Category) : List Nat := (categories.flatMap hints).eraseDups.mergeSort

theorem mem_all (c : Category) : c ∈ all := by cases c <;> decide

@[simp] theorem ofName?_name (c : Category) : ofName? c.name = some c := by cases c <;> decide

theorem name_of_ofName? {name : String} {c : Category} (h : ofName? name = some c) : c.name = name := by
  simpa using List.find?_some h

end Category

end Phrasebook.Plural
