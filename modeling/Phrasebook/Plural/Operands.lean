import Phrasebook.Fault
import Phrasebook.Number.Shortest

/-!
# Plural operands

Plural rules do not look at a count itself but at its operands: its magnitude, the whole part of that, and the digits
of its shortest decimal text behind the point.

* `Magnitude.ofCount` is the magnitude of a count. It fails for values without one, and for infinities and what is not a
  number, which have no whole part.
* `Operands.ofMagnitude` computes the operands.
-/

namespace Phrasebook.Plural

/-- A magnitude with a whole part: a whole number, or a mantissa and a power of two. -/
inductive Magnitude where
  | whole (n : Nat)
  | double (mantissa : Nat) (exponent : Int)
  deriving DecidableEq, Repr

/-- The magnitude of a count. -/
def Magnitude.ofCount : Value → Except Fault Magnitude
  | .bool b => .ok (.whole b.toNat)
  | .int n => .ok (.whole n.natAbs)
  | .float (.finite _ m e _) => .ok (.double m e)
  | .float (.infinite _) => .error .infiniteCount
  | .float .nan => .error .nanCount
  | v => .error (.noMagnitude v.typeName)

/-- What plural rules look at. -/
structure Operands where
  /-- the magnitude, if it is whole -/
  magnitude : Option Nat
  /-- the whole part of the magnitude -/
  whole : Nat
  /-- the number of digits behind the point -/
  fractionDigits : Nat := 0
  /-- the number that the digits behind the point make up -/
  fraction : Nat := 0
  deriving DecidableEq, Repr

namespace Operands

/-- The operands of a whole number. -/
def ofNat (n : Nat) : Operands := { magnitude := some n, whole := n }

/-- The operands of a number with the given whole part that is not whole itself, and of which `digits * 10 ^ exponent`
is the shortest text. The digits behind the point are the last ones of `digits`; zeros between the point and the first
of `digits` are not counted. -/
def ofFraction (whole digits : Nat) (exponent : Int) : Operands :=
  let ds := (toString digits).toList
  let fraction := ds.drop (ds.length - (-exponent).toNat)
  { magnitude := none, whole, fractionDigits := fraction.length, fraction := Text.numeral fraction }

/-- The operands of a magnitude. -/
def ofMagnitude : Magnitude → Operands
  | .whole n => ofNat n
  | .double m e =>
    match Binary64.whole? m e with
    | some n => ofNat n
    | none =>
      let (digits, exponent) := Binary64.shortest m e
      ofFraction (Binary64.wholePart m e) digits exponent

end Operands

end Phrasebook.Plural
