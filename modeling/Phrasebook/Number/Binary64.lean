/-!
# Double-precision numbers

A double is a sign, a whole mantissa and a power of two in their one canonical form, an infinity, or not a number. All
arithmetic is exact arithmetic on whole numbers followed by one rounding to the nearest double, ties to even.

* `ofRatio` rounds a quotient of whole numbers.
* `toInt?` is the value of a double that is a whole number.
* `same` compares as numbers do: the two zeros are equal, and what is not a number differs from everything.
-/

namespace Phrasebook

/-- The form of a mantissa and an exponent that each double has exactly once. -/
def Binary64.Canonical (mantissa : Nat) (exponent : Int) : Prop :=
  mantissa < 1 <<< 53 ∧ -1074 ≤ exponent ∧ exponent ≤ 971 ∧ (1 <<< 52 ≤ mantissa ∨ exponent = -1074)

instance (mantissa : Nat) (exponent : Int) : Decidable (Binary64.Canonical mantissa exponent) :=
  inferInstanceAs (Decidable (_ ∧ _))

/-- A double-precision number. -/
inductive Binary64 where
  | finite (negative : Bool) (mantissa : Nat) (exponent : Int) (canonical : Binary64.Canonical mantissa exponent)
  | infinite (negative : Bool)
  | nan
  deriving DecidableEq

namespace Binary64

/-- Zero, with a sign. -/
def zero (negative : Bool) : Binary64 := .finite negative 0 (-1074) (by decide)

instance : Inhabited Binary64 := ⟨zero false⟩

/-- The double of a mantissa and an exponent in canonical form, an infinity when the exponent is too large. -/
def ofParts (negative : Bool) (mantissa : Nat) (exponent : Int) : Binary64 :=
  if h : Canonical mantissa exponent then .finite negative mantissa exponent h else .infinite negative

/-! ## Rounding -/

/-- The whole number nearest to a quotient, the even one of two. -/
def roundDiv (num den : Nat) : Nat :=
  let q := num / den
  let r := num % den
  if 2 * r < den then q else if den < 2 * r then q + 1 else q + q % 2

/-- The quotient `num / (den * 2 ^ e)` with both sides whole. -/
def scaled (num den : Nat) (e : Int) : Nat × Nat :=
  if 0 ≤ e then (num, den <<< e.toNat) else (num <<< (-e).toNat, den)

/-- The exponent of the double nearest to a positive quotient, before rounding. -/
def exponentOf (num den : Nat) : Int :=
  let e := max (-1074) ((Nat.log2 num : Int) - Nat.log2 den - 53)
  let (n, d) := scaled num den e
  if 1 <<< 53 ≤ n / d then e + 1 else e

/-- The double nearest to a quotient, the even one of two. -/
def ofRatio (negative : Bool) (num den : Nat) : Binary64 :=
  if num = 0 || den = 0 then zero negative
  else
    let e := exponentOf num den
    let (n, d) := scaled num den e
    let m := roundDiv n d
    if m = 1 <<< 53 then ofParts negative (1 <<< 52) (e + 1) else ofParts negative m e

/-! ## Whole numbers and order -/

/-- The value of a mantissa and an exponent, if it is whole. -/
def whole? (mantissa : Nat) (exponent : Int) : Option Nat :=
  if 0 ≤ exponent then some (mantissa <<< exponent.toNat)
  else
    let d := 1 <<< (-exponent).toNat
    if mantissa % d = 0 then some (mantissa / d) else none

/-- The value of a double that is a whole number. -/
def toInt? : Binary64 → Option Int
  | .finite negative m e _ => (whole? m e).map fun n => if negative then -n else n
  | _ => none

/-- The whole part of the magnitude of a finite double. -/
def wholePart (mantissa : Nat) (exponent : Int) : Nat :=
  if 0 ≤ exponent then mantissa <<< exponent.toNat else mantissa >>> (-exponent).toNat

/-- Equality of numbers. -/
def same : Binary64 → Binary64 → Bool
  | .finite s m e _, .finite s' m' e' _ => m = m' && e = e' && (s = s' || m = 0)
  | .infinite s, .infinite s' => s = s'
  | _, _ => false

/-- Whether a double is not a number. -/
def isNan : Binary64 → Bool
  | .nan => true
  | _ => false

/-! ## Arithmetic -/

/-- The number with the other sign. -/
def neg : Binary64 → Binary64
  | .finite s m e h => .finite (!s) m e h
  | .infinite s => .infinite (!s)
  | .nan => .nan

/-- A whole number times a power of two, rounded. -/
def ofScaledInt (n e : Int) : Binary64 :=
  if 0 ≤ e then ofRatio (n < 0) (n.natAbs <<< e.toNat) 1 else ofRatio (n < 0) n.natAbs (1 <<< (-e).toNat)

/-- The sum, rounded; a zero sum is positive unless both sides are negative zeros. -/
def add : Binary64 → Binary64 → Binary64
  | .finite s m e h, .finite s' m' e' _ =>
    let low := min e e'
    let signed (s : Bool) (m : Nat) (e : Int) : Int :=
      let n := m <<< (e - low).toNat
      if s then -(n : Int) else n
    let n := signed s m e + signed s' m' e'
    if n = 0 then (if s && s' && m = 0 then .finite s m e h else zero false) else ofScaledInt n low
  | .nan, _ | _, .nan => .nan
  | .infinite s, .infinite s' => if s = s' then .infinite s else .nan
  | .infinite s, _ | _, .infinite s => .infinite s

/-- The product with a positive whole number, rounded. -/
def scale (k : Nat) : Binary64 → Binary64
  | .finite s m e _ => if 0 ≤ e then ofRatio s ((k * m) <<< e.toNat) 1 else ofRatio s (k * m) (1 <<< (-e).toNat)
  | x => x

end Binary64

end Phrasebook
