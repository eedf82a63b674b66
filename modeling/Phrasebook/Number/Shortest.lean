import Phrasebook.Number.Decimal

/-!
# The shortest text of a double

A double is written with the fewest digits that still round to it, and of those with the digits nearest to it.

* `Binary64.shortest` chooses the digits: on the grids of one to seventeen digits it tests the two neighbours of the
  value, and the first grid with a neighbour in the interval that rounds to the value wins.
* `Binary64.toText` lays them out: with a point for magnitudes from `10 ^ -4` below `10 ^ 16`, else with an exponent
  of at least two digits.
-/

namespace Phrasebook.Binary64

/-- The least `k` such that a positive quotient is below `10 ^ k`. -/
def decimalSize (num den : Nat) : Int :=
  if den ≤ num then (toString (num / den)).length
  else 1 - (toString ((den + num - 1) / num - 1)).length

/-- The number of `digits` digits that rounds to the double and is nearest to it, if there is one. -/
def onGrid? (mantissa : Nat) (exponent : Int) (digits : Nat) : Option (Nat × Int) :=
  -- all numbers are taken in quarters of the unit in the last place
  let value := 4 * mantissa
  let low := if mantissa = 1 <<< 52 && -1074 < exponent then value - 1 else value - 2
  let high := value + 2
  let (unit, den) := if 2 ≤ exponent then (1 <<< (exponent - 2).toNat, 1) else (1, 1 <<< (2 - exponent).toNat)
  let place := decimalSize (value * unit) den - digits
  let (unit, step) := if 0 ≤ place then (unit, den * Nat.pow 10 place.toNat) else (unit * Nat.pow 10 (-place).toNat, den)
  let inside (d : Nat) : Bool :=
    if mantissa % 2 = 0 then low * unit ≤ d * step && d * step ≤ high * unit
    else low * unit < d * step && d * step < high * unit
  let d := value * unit / step
  let r := value * unit % step
  match inside d, inside (d + 1) with
  | true, true => some (if 2 * r < step || (2 * r = step && d % 2 = 0) then d else d + 1, place)
  | true, false => some (d, place)
  | false, true => some (d + 1, place)
  | false, false => none

/-- Moves zeros at the end of a number into its power of ten, as many as the fuel allows. -/
def dropZeros : Nat → Nat × Int → Nat × Int
  | fuel + 1, (n, e) => if n ≠ 0 && n % 10 = 0 then dropZeros fuel (n / 10, e + 1) else (n, e)
  | 0, p => p

/-- The digits and the power of ten of the shortest number that rounds to a positive double. -/
def shortest (mantissa : Nat) (exponent : Int) : Nat × Int :=
  if mantissa = 0 then (0, 0)
  else dropZeros 17 (((List.range 17).findSome? fun n => onGrid? mantissa exponent (n + 1)).getD (0, 0))

/-- Lays out the digits of a number whose last digit stands at the power `exponent` of ten. -/
def layOut (digits : Nat) (exponent : Int) : String :=
  let ds := (toString digits).toList
  let top : Int := ds.length + exponent - 1
  let zeros (n : Int) : List Char := List.replicate n.toNat '0'
  if digits = 0 then "0.0"
  else if 16 ≤ top || top < -4 then
    let sign := if top < 0 then "-" else "+"
    let point := if ds.length = 1 then [] else ['.']
    String.ofList (ds.take 1 ++ point ++ ds.drop 1) ++ "e" ++ sign ++ Text.padded 2 top.natAbs
  else if top < 0 then String.ofList ('0' :: '.' :: zeros (-top - 1) ++ ds)
  else if 0 ≤ exponent then String.ofList (ds ++ zeros exponent ++ ['.', '0'])
  else String.ofList (ds.take (top.toNat + 1) ++ '.' :: ds.drop (top.toNat + 1))

/-- The text of a double. -/
def toText : Binary64 → String
  | .finite negative m e _ =>
    let (digits, exponent) := shortest m e
    (if negative then "-" else "") ++ layOut digits exponent
  | .infinite negative => if negative then "-inf" else "inf"
  | .nan => "nan"

/-- Reads what `toText` writes, and every other decimal number. -/
def ofText? (s : String) : Option Binary64 :=
  if s = "inf" then some (.infinite false)
  else if s = "-inf" then some (.infinite true)
  else if s = "nan" then some .nan
  else (Decimal.ofText? s.toList).map Decimal.toBinary64

end Phrasebook.Binary64
