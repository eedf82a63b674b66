/-!
# Likeness of words

Two words are alike by the share of their characters that lie in common blocks. The longest common block is taken out
first, and the parts to its left and to its right are then compared in the same way.

* `longestBlock` finds that block: of several, the one that starts first in the first word, then in the second.
* `matched` counts the characters in all blocks. It depends on the order of the two words.
* `alike` asks for four fifths of the characters of both words.
-/

namespace Phrasebook.Text

/-- Where a block of common characters starts in either word, and its length. -/
structure Block where
  left : Nat
  right : Nat
  size : Nat
  deriving DecidableEq, Repr

/-- How many characters two texts begin with in common. -/
def commonStart : List Char → List Char → Nat
  | a :: as, b :: bs => if a = b then commonStart as bs + 1 else 0
  | _, _ => 0

/-- The longest block of common characters, the earliest of the longest ones. -/
def longestBlock (xs ys : List Char) : Block :=
  (List.range xs.length).foldl (fun best i =>
    (List.range ys.length).foldl (fun best j =>
      let n := commonStart (xs.drop i) (ys.drop j)
      if best.size < n then ⟨i, j, n⟩ else best) best) ⟨0, 0, 0⟩

/-- The number of characters in common blocks, for words shorter than the fuel. -/
def matchedWithin : Nat → List Char → List Char → Nat
  | 0, _, _ => 0
  | fuel + 1, xs, ys =>
    let b := longestBlock xs ys
    if b.size = 0 then 0
    else matchedWithin fuel (xs.take b.left) (ys.take b.right) + b.size +
      matchedWithin fuel (xs.drop (b.left + b.size)) (ys.drop (b.right + b.size))

/-- The number of characters in common blocks. -/
def matched (xs ys : List Char) : Nat := matchedWithin (xs.length + 1) xs ys

/-- Whether at least four fifths of the characters of both words lie in common blocks. Words of very different lengths
are told apart by their lengths alone, since no word holds more blocks than characters. -/
def alike (xs ys : List Char) : Bool :=
  4 * (xs.length + ys.length) ≤ 10 * min xs.length ys.length && 4 * (xs.length + ys.length) ≤ 10 * matched xs ys

end Phrasebook.Text
