import Phrasebook.Plural.Category
import Phrasebook.Plural.Operands

/-!
# Plural rules

A language gives each category but the last a condition on the operands of a count: one of several alternatives, each
of which asks several things at once. What is asked is that an operand, or its remainder, lies in some ranges or not.

* `Relation.holds`, `Condition.holds` and `Rules.select` are the meaning of the rules.
-/

namespace Phrasebook.Plural

/-- An operand, by the letter that plural rules use for it. -/
inductive Operand where
  | n
  | i
  | v
  | f
  | t
  | e
  deriving DecidableEq, Repr

/-- The value of an operand, if it is whole. Counts are never written with an exponent, and a shortest text never ends
with a zero behind the point. -/
def Operands.value (o : Operands) : Operand → Option Nat
  | .n => o.magnitude
  | .i => some o.whole
  | .v => some o.fractionDigits
  | .f | .t => some o.fraction
  | .e => some 0

/-- What is asked of an operand: that its remainder by `modulus` lies in one of the ranges, or in none if `negated`. A
modulus of zero asks for the operand itself. -/
structure Relation where
  operand : Operand
  modulus : Nat
  negated : Bool
  ranges : List (Nat × Nat)
  deriving DecidableEq, Repr

/-- Whether a relation holds. A number that is not whole lies in no range. -/
def Relation.holds (r : Relation) (o : Operands) : Bool :=
  let inside := match o.value r.operand with
    | some x => r.ranges.any fun (low, high) => low ≤ x % r.modulus && x % r.modulus ≤ high
    | none => false
  inside != r.negated

/-- Alternatives, each of which asks for several relations at once. -/
abbrev Condition := List (List Relation)

/-- Whether a condition holds. -/
def Condition.holds (c : Condition) (o : Operands) : Bool := c.any fun relations => relations.all (·.holds o)

/-- The conditions of a language; a category without one has no alternative. -/
structure Rules where
  zero : Condition := []
  one : Condition := []
  two : Condition := []
  few : Condition := []
  many : Condition := []
  deriving DecidableEq, Repr

/-- The category of a count: the first whose condition holds, in the alphabetical order of their names. -/
def Rules.select (rules : Rules) (o : Operands) : Category :=
  if Condition.holds rules.few o then .few
  else if Condition.holds rules.many o then .many
  else if Condition.holds rules.one o then .one
  else if Condition.holds rules.two o then .two
  else if Condition.holds rules.zero o then .zero
  else .other

/-- The operand lies in one of the ranges. -/
def isIn (operand : Operand) (modulus : Nat) (ranges : List (Nat × Nat)) : Relation :=
  ⟨operand, modulus, false, ranges⟩

/-- The operand lies in none of the ranges. -/
def notIn (operand : Operand) (modulus : Nat) (ranges : List (Nat × Nat)) : Relation :=
  ⟨operand, modulus, true, ranges⟩

end Phrasebook.Plural
