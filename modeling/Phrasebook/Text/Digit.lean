/-!
# Decimal digits

The characters of Unicode's class of decimal digits come in runs of ten, zero first.

* `digitValue?` gives the number a digit stands for, in any script.
* `numeral` reads digits as a number, whatever scripts they mix. Numbers with more digits than `digitLimit` are neither
  read nor written.
-/

namespace Phrasebook.Text

/-- The zero of each run of ten decimal digits, in ascending order. -/
def zeroDigits : List Nat := [
  0x30, 0x660, 0x6f0, 0x7c0, 0x966, 0x9e6, 0xa66, 0xae6, 0xb66, 0xbe6, 0xc66, 0xce6, 0xd66, 0xde6, 0xe50, 0xed0,
  0xf20, 0x1040, 0x1090, 0x17e0, 0x1810, 0x1946, 0x19d0, 0x1a80, 0x1a90, 0x1b50, 0x1bb0, 0x1c40, 0x1c50, 0xa620,
  0xa8d0, 0xa900, 0xa9d0, 0xa9f0, 0xaa50, 0xabf0, 0xff10, 0x104a0, 0x10d30, 0x11066, 0x110f0, 0x11136, 0x111d0,
  0x112f0, 0x11450, 0x114d0, 0x11650, 0x116c0, 0x11730, 0x118e0, 0x11950, 0x11c50, 0x11d50, 0x11da0, 0x16a60,
  0x16ac0, 0x16b50, 0x1d7ce, 0x1d7d8, 0x1d7e2, 0x1d7ec, 0x1d7f6, 0x1e140, 0x1e2f0, 0x1e950, 0x1fbf0]

/-- The number that a decimal digit stands for. -/
def digitValue? (c : Char) : Option Nat :=
  (zeroDigits.find? fun z => z ≤ c.toNat && c.toNat < z + 10).map (c.toNat - ·)

/-- The most digits that a whole number is read from or written with. -/
def digitLimit : Nat := 4300

/-- Whether a character is a decimal digit of some script. -/
def isDigit (c : Char) : Bool := (digitValue? c).isSome

/-- The number that a row of digits stands for; other characters count as zero. -/
def numeral (ds : List Char) : Nat := ds.foldl (fun n d => 10 * n + (digitValue? d).getD 0) 0

/-- The number that a row of digits of a base up to sixteen stands for, ASCII letters taken in either case. -/
def numeralIn (base : Nat) (ds : List Char) : Nat :=
  let value (c : Char) : Nat :=
    if c.isDigit then c.toNat - 48 else if c.toNat < 97 then c.toNat - 55 else c.toNat - 87
  ds.foldl (fun n d => base * n + value d) 0

/-- Whether a character is an ASCII digit of base sixteen. -/
def isHexDigit (c : Char) : Bool := c.isDigit || ('a' ≤ c && c ≤ 'f') || ('A' ≤ c && c ≤ 'F')

/-- The digits of a number in base ten, at least `width` of them. -/
def padded (width n : Nat) : String :=
  let ds := toString n
  String.ofList (List.replicate (width - ds.length) '0') ++ ds

/-- The digits of a number in base sixteen, lower case, at least `width` of them. -/
def paddedHex (width n : Nat) : String :=
  let ds := Nat.toDigits 16 n
  String.ofList (List.replicate (width - ds.length) '0' ++ ds)

/-- Whether a text consists of digits with single underscores between them. -/
def isGrouped : List Char → Bool
  | [] => false
  | [d] => isDigit d
  | d :: '_' :: ds => isDigit d && isGrouped ds
  | d :: ds => isDigit d && isGrouped ds

/-- Cuts a row of ASCII digits off the front of a text, at most `most` of them, if there are at least `least`. -/
def cutDigits? (least most : Nat) (cs : List Char) : Option (List Char × List Char) :=
  let ds := (cs.take most).takeWhile Char.isDigit
  if ds.length < least then none else some (ds, cs.drop ds.length)

end Phrasebook.Text
