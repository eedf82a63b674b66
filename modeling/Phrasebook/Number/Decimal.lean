import Phrasebook.Number.Binary64
import Phrasebook.Text.Digit

/-!
# Decimal numbers

A decimal number is a sign, its digits read as one whole number, and a power of ten.

* `Decimal.ofText?` reads digits with an optional sign, point and exponent.
* `Decimal.toBinary64` is the nearest double.
-/

namespace Phrasebook

/-- The number `digits * 10 ^ exponent`, with a sign. -/
structure Decimal where
  negative : Bool
  digits : Nat
  exponent : Int
  deriving DecidableEq, Repr

namespace Decimal

/-- The double nearest to a decimal number. A power of ten far outside the range of doubles decides by itself. -/
def toBinary64 (d : Decimal) : Binary64 :=
  let size : Int := (toString d.digits).length + d.exponent
  if d.digits = 0 || size < -400 then .zero d.negative
  else if 400 < size then .infinite d.negative
  else if 0 ≤ d.exponent then .ofRatio d.negative (d.digits * Nat.pow 10 d.exponent.toNat) 1
  else .ofRatio d.negative d.digits (Nat.pow 10 (-d.exponent).toNat)

/-- A sign in front of a text, and the rest. -/
def cutSign : List Char → Bool × List Char
  | '-' :: cs => (true, cs)
  | '+' :: cs => (false, cs)
  | cs => (false, cs)

/-- Reads an exponent, which is absent or holds at least one digit. -/
def exponentOfText? : List Char → Option Int
  | [] => some 0
  | c :: cs =>
    if c = 'e' || c = 'E' then
      let (negative, ds) := cutSign cs
      if ds.isEmpty || !ds.all Char.isDigit then none
      else
        let n : Int := Text.numeral ds
        some (if negative then -n else n)
    else none

/-- Reads a decimal number: a sign, digits, a point and digits, an exponent. All but one digit may be missing. -/
def ofText? (cs : List Char) : Option Decimal := do
  let (negative, cs) := cutSign cs
  let before := cs.takeWhile Char.isDigit
  let rest := cs.dropWhile Char.isDigit
  let (after, rest) := match rest with
    | '.' :: rest => (rest.takeWhile Char.isDigit, rest.dropWhile Char.isDigit)
    | rest => ([], rest)
  if before.isEmpty && after.isEmpty then none
  let exponent ← exponentOfText? rest
  return ⟨negative, Text.numeral (before ++ after), exponent - after.length⟩

end Decimal

end Phrasebook
