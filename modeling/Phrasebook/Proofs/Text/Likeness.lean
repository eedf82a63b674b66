import Mathlib.Algebra.Order.Field.Basic
import Mathlib.Data.Rat.Cast.Order
import Mathlib.Tactic.NormNum
import Mathlib.Tactic.Linarith
import Phrasebook.Text.Similarity

/-!
# How alike two words are

Two words share the longest block of characters that they have in common, and then what is shared to the left and to the
right of it (`Shares`).

* `FirstBest`: a search that keeps the best so far ends with the first of the best.
* `longestBlock_cases`: so the block that is found is the longest one and, of those, the one that starts first.
* `shares_iff`: what two words share is determined, and is what is counted.
* `alike_iff`: words are alike exactly if twice the shared characters are at least four fifths of all characters.
-/

namespace Phrasebook.Text

/-! ## Searching for the best -/

/-- An item is the first of the best ones in a list. -/
def FirstBest {α : Type} (size : α → Nat) (xs : List α) (best : α) : Prop :=
  ∃ before after, xs = before ++ best :: after ∧ (∀ x ∈ before, size x < size best) ∧ ∀ x ∈ after, size x ≤ size best

/-- A search that keeps the best so far keeps what it began with, if nothing is better, or ends with the first of the
best. -/
theorem foldl_best {α : Type} (size : α → Nat) (xs : List α) (start : α) :
    let best := xs.foldl (fun best x => if size best < size x then x else best) start
    best = start ∧ (∀ x ∈ xs, size x ≤ size start) ∨ size start < size best ∧ FirstBest size xs best := by
  induction xs generalizing start with
  | nil => exact Or.inl ⟨rfl, fun _ h => absurd h List.not_mem_nil⟩
  | cons x xs ih =>
    intro best
    by_cases hx : size start < size x
    · have hbest : best = xs.foldl (fun best x => if size best < size x then x else best) x := by
        simp only [best, List.foldl_cons, if_pos hx]
      right
      rcases ih x with ⟨hsame, hle⟩ | ⟨hlt, before, after, hxs, hbefore, hafter⟩
      · rw [← hbest] at hsame
        rw [hsame]
        exact ⟨hx, [], xs, rfl, fun _ h => absurd h List.not_mem_nil, hle⟩
      · rw [← hbest] at hlt hxs hbefore hafter
        refine ⟨hx.trans hlt, x :: before, after, by rw [List.cons_append, ← hxs], ?_, hafter⟩
        exact List.forall_mem_cons.2 ⟨hlt, hbefore⟩
    · have hbest : best = xs.foldl (fun best x => if size best < size x then x else best) start := by
        simp only [best, List.foldl_cons, if_neg hx]
      rcases ih start with ⟨hsame, hle⟩ | ⟨hlt, before, after, hxs, hbefore, hafter⟩
      · rw [← hbest] at hsame
        exact Or.inl ⟨hsame, List.forall_mem_cons.2 ⟨by omega, hle⟩⟩
      · rw [← hbest] at hlt hxs hbefore hafter
        refine Or.inr ⟨hlt, x :: before, after, by rw [List.cons_append, ← hxs], ?_, hafter⟩
        exact List.forall_mem_cons.2 ⟨by omega, hbefore⟩

/-! ## The longest common block -/

theorem take_commonStart (xs ys : List Char) : xs.take (commonStart xs ys) = ys.take (commonStart xs ys) ∧
    commonStart xs ys ≤ xs.length ∧ commonStart xs ys ≤ ys.length := by
  induction xs generalizing ys with
  | nil => simp [commonStart]
  | cons x xs ih =>
    cases ys with
    | nil => simp [commonStart]
    | cons y ys =>
      rw [commonStart]
      split
      · next h =>
        obtain ⟨htake, hx, hy⟩ := ih ys
        simp [h, htake, hx, hy]
      · simp

/-- No beginning of both texts is longer than what they begin with in common. -/
theorem length_le_commonStart {start xs ys : List Char} (hx : start <+: xs) (hy : start <+: ys) :
    start.length ≤ commonStart xs ys := by
  induction start generalizing xs ys with
  | nil => exact Nat.zero_le _
  | cons c start ih =>
    obtain ⟨rest, rfl⟩ := hx
    obtain ⟨rest', rfl⟩ := hy
    rw [List.cons_append, List.cons_append, commonStart, if_pos rfl, List.length_cons]
    exact Nat.succ_le_succ (ih (List.prefix_append _ _) (List.prefix_append _ _))

/-- The longest block that begins at each pair of places in two texts, in the order of the places. -/
def blocks (xs ys : List Char) : List Block :=
  (List.range xs.length).flatMap fun i =>
    (List.range ys.length).map fun j => ⟨i, j, commonStart (xs.drop i) (ys.drop j)⟩

theorem mem_blocks {xs ys : List Char} {b : Block} : b ∈ blocks xs ys ↔
    b.left < xs.length ∧ b.right < ys.length ∧ b.size = commonStart (xs.drop b.left) (ys.drop b.right) := by
  simp only [blocks, List.mem_flatMap, List.mem_map, List.mem_range]
  constructor
  · rintro ⟨i, hi, j, hj, rfl⟩
    exact ⟨hi, hj, rfl⟩
  · rintro ⟨hi, hj, hsize⟩
    exact ⟨b.left, hi, b.right, hj, by rw [← hsize]⟩

/-- A block starts before another one: in the first text, or there at the same place and before it in the second. -/
def Block.Precedes (b c : Block) : Prop := b.left < c.left ∨ b.left = c.left ∧ b.right < c.right

theorem pairwise_blocks (xs ys : List Char) : (blocks xs ys).Pairwise Block.Precedes := by
  rw [blocks, List.pairwise_flatMap]
  refine ⟨fun i _ => ?_, ?_⟩
  · refine List.pairwise_map.2 (List.pairwise_lt_range.imp fun hlt => Or.inr ⟨rfl, hlt⟩)
  · refine List.pairwise_lt_range.imp fun hlt b hb c hc => Or.inl ?_
    obtain ⟨_, -, rfl⟩ := List.mem_map.1 hb
    obtain ⟨_, -, rfl⟩ := List.mem_map.1 hc
    exact hlt

theorem longestBlock_eq (xs ys : List Char) :
    longestBlock xs ys = (blocks xs ys).foldl (fun best b => if best.size < b.size then b else best) ⟨0, 0, 0⟩ := by
  simp only [longestBlock, blocks, List.foldl_flatMap, List.foldl_map]

/-- Two texts with a block in common, such that no block in common is longer, and none that is as long starts before
it. -/
structure IsLongest (xs ys before before' block after after' : List Char) : Prop where
  left : xs = before ++ block ++ after
  right : ys = before' ++ block ++ after'
  ne_nil : block ≠ []
  longest : ∀ k k' other s s', xs = k ++ other ++ s → ys = k' ++ other ++ s' → other.length < block.length ∨
    other.length = block.length ∧ (before.length < k.length ∨ before.length = k.length ∧ before'.length ≤ k'.length)

/-- A block in common is no longer than the one that begins at its places. -/
theorem exists_block {k k' other s s' xs ys : List Char} (hne : other ≠ []) (hx : xs = k ++ other ++ s)
    (hy : ys = k' ++ other ++ s') :
    ∃ b ∈ blocks xs ys, b.left = k.length ∧ b.right = k'.length ∧ other.length ≤ b.size := by
  have hpos := List.length_pos_iff.2 hne
  let b : Block := ⟨k.length, k'.length, commonStart (xs.drop k.length) (ys.drop k'.length)⟩
  refine ⟨b, mem_blocks.2 ⟨?_, ?_, rfl⟩, rfl, rfl, length_le_commonStart ?_ ?_⟩
  · simp only [b, hx, List.length_append]
    omega
  · simp only [b, hy, List.length_append]
    omega
  · simp [hx]
  · simp [hy]

/-- A text in three parts: before a place, so many characters from there, and what is behind them. -/
theorem take_append_take_drop_append_drop (xs : List Char) (i n : Nat) :
    xs.take i ++ (xs.drop i).take n ++ xs.drop (i + n) = xs := by
  rw [List.append_assoc, ← List.drop_drop, List.take_append_drop, List.take_append_drop]

/-- The part of the first text that a block takes up. -/
def Block.text (b : Block) (xs : List Char) : List Char := (xs.drop b.left).take b.size

/-- The first of the largest blocks is the longest block of two texts and the first of those. -/
theorem isLongest_of_firstBest {xs ys : List Char} {b : Block} (hpos : 0 < b.size)
    (h : FirstBest Block.size (blocks xs ys) b) :
    (b.text xs).length = b.size ∧ IsLongest xs ys (xs.take b.left) (ys.take b.right) (b.text xs)
      (xs.drop (b.left + b.size)) (ys.drop (b.right + b.size)) := by
  obtain ⟨earlier, later, hblocks, hearlier, hlater⟩ := h
  have hmem : b ∈ blocks xs ys := hblocks ▸ List.mem_append_cons_self
  obtain ⟨hleft, hright, hsize⟩ := mem_blocks.1 hmem
  obtain ⟨hcommon, hfits, -⟩ := take_commonStart (xs.drop b.left) (ys.drop b.right)
  rw [← hsize] at hcommon hfits
  have hlength : (b.text xs).length = b.size := by rw [Block.text, List.length_take, Nat.min_eq_left hfits]
  refine ⟨hlength, (take_append_take_drop_append_drop xs _ _).symm, ?_, ?_, ?_⟩
  · rw [Block.text, hcommon, take_append_take_drop_append_drop]
  · exact List.ne_nil_of_length_pos (hpos.trans_eq hlength.symm)
  · intro k k' other s s' hx hy
    rw [hlength, List.length_take_of_le (Nat.le_of_lt hleft), List.length_take_of_le (Nat.le_of_lt hright)]
    by_cases hother : other = []
    · exact Or.inl (by rw [hother]; exact hpos)
    -- the block at the places of the other one is one of those before the best, the best, or one of those behind it
    obtain ⟨c, hc, hk, hk', hle⟩ := exists_block hother hx hy
    rw [hblocks, List.mem_append, List.mem_cons] at hc
    have hpairs := pairwise_blocks xs ys
    rw [hblocks, List.pairwise_append, List.pairwise_cons] at hpairs
    rcases hc with hc | rfl | hc
    · exact Or.inl (Nat.lt_of_le_of_lt hle (hearlier c hc))
    · omega
    · have hsizes := hlater c hc
      rcases hpairs.2.1.1 c hc with hlt | ⟨heq, hlt⟩ <;> omega

/-- Either two texts have no character in common, or the block that is found is the longest one and the first of those.
-/
theorem longestBlock_cases (xs ys : List Char) :
    let b := longestBlock xs ys
    b.size = 0 ∧ (∀ c ∈ xs, c ∉ ys) ∨
      (b.text xs).length = b.size ∧ IsLongest xs ys (xs.take b.left) (ys.take b.right) (b.text xs)
        (xs.drop (b.left + b.size)) (ys.drop (b.right + b.size)) := by
  intro b
  have hb : b = (blocks xs ys).foldl (fun best b => if best.size < b.size then b else best) ⟨0, 0, 0⟩ :=
    longestBlock_eq xs ys
  rcases foldl_best Block.size (blocks xs ys) ⟨0, 0, 0⟩ with ⟨hsame, hle⟩ | ⟨hlt, hbest⟩
  · refine Or.inl ⟨by rw [hb, hsame], fun c hx hy => ?_⟩
    obtain ⟨k, s, hx⟩ := List.append_of_mem hx
    obtain ⟨k', s', hy⟩ := List.append_of_mem hy
    obtain ⟨block, hmem, -, -, hsize⟩ := exists_block (List.cons_ne_nil c [])
      (hx.trans (List.append_cons k c s)) (hy.trans (List.append_cons k' c s'))
    have hzero := hle block hmem
    simp only [List.length_singleton] at hsize hzero
    omega
  · rw [← hb] at hlt hbest
    exact Or.inr (isLongest_of_firstBest hlt hbest)

/-! ## What is shared -/

/-- What two texts share: the longest block that they have in common, of several the one that starts first in the first
text and then in the second, and what the parts to its left and those to its right share. -/
inductive Shares : List Char → List Char → Nat → Prop
  | nothing {xs ys : List Char} (h : ∀ c ∈ xs, c ∉ ys) : Shares xs ys 0
  | block {xs ys before before' block after after' : List Char} {n n' : Nat}
      (h : IsLongest xs ys before before' block after after') (left : Shares before before' n)
      (right : Shares after after' n') : Shares xs ys (n + block.length + n')

/-- There is but one block that is longest and starts first. -/
theorem IsLongest.unique {xs ys before before' block after after' k k' other s s' : List Char}
    (h : IsLongest xs ys before before' block after after') (h' : IsLongest xs ys k k' other s s') :
    before = k ∧ before' = k' ∧ block = other ∧ after = s ∧ after' = s' := by
  have hle := h.longest k k' other s s' h'.left h'.right
  have hge := h'.longest before before' block after after' h.left h.right
  have hlengths : before.length = k.length ∧ before'.length = k'.length ∧ block.length = other.length := by omega
  obtain ⟨hleft, hright, hsize⟩ := hlengths
  have hx := h.left.symm.trans h'.left
  have hy := h.right.symm.trans h'.right
  rw [List.append_assoc, List.append_assoc] at hx hy
  obtain ⟨hbefore, hx⟩ := List.append_inj hx hleft
  obtain ⟨hbefore', hy⟩ := List.append_inj hy hright
  obtain ⟨hblock, hafter⟩ := List.append_inj hx hsize
  exact ⟨hbefore, hbefore', hblock, hafter, (List.append_inj hy hsize).2⟩

/-- Texts with a block in common have a character in common. -/
theorem IsLongest.exists_mem {xs ys before before' block after after' : List Char}
    (h : IsLongest xs ys before before' block after after') : ∃ c ∈ xs, c ∈ ys := by
  obtain ⟨c, block, rfl⟩ := List.exists_cons_of_ne_nil h.ne_nil
  exact ⟨c, by simp [h.left], by simp [h.right]⟩

/-- Two texts share one number of characters. -/
theorem Shares.unique {xs ys : List Char} {n m : Nat} (h : Shares xs ys n) (h' : Shares xs ys m) : n = m := by
  -- by induction on how the first number is made up: the second one begins with the same block, or with none either
  induction h generalizing m with
  | nothing hnone =>
    cases h' with
    | nothing => rfl
    | block hlongest =>
      obtain ⟨c, hx, hy⟩ := hlongest.exists_mem
      exact absurd hy (hnone c hx)
  | block hlongest _ _ ihleft ihright =>
    cases h' with
    | nothing hnone =>
      obtain ⟨c, hx, hy⟩ := hlongest.exists_mem
      exact absurd hy (hnone c hx)
    | block hother hleft hright =>
      obtain ⟨rfl, rfl, rfl, rfl, rfl⟩ := hlongest.unique hother
      rw [ihleft hleft, ihright hright]

theorem shares_matchedWithin {fuel : Nat} {xs ys : List Char} (h : xs.length < fuel) :
    Shares xs ys (matchedWithin fuel xs ys) := by
  induction fuel generalizing xs ys with
  | zero => exact absurd h (Nat.not_lt_zero _)
  | succ fuel ih =>
    rw [matchedWithin]
    rcases longestBlock_cases xs ys with ⟨hsize, hnone⟩ | ⟨hsize, hlongest⟩
    · simp only [hsize, if_true]
      exact .nothing hnone
    · have hpos := List.length_pos_iff.2 hlongest.ne_nil
      have hlength := congrArg List.length hlongest.left
      simp only [List.length_append] at hlength
      simp only [if_neg (Nat.ne_of_gt (hsize ▸ hpos))]
      have hshares := Shares.block hlongest (ih (by omega)) (ih (by omega))
      rw [hsize] at hshares
      exact hshares

/-- **What two texts share is what is counted.** -/
theorem shares_iff {xs ys : List Char} {n : Nat} : Shares xs ys n ↔ n = matched xs ys := by
  have hmatched : Shares xs ys (matched xs ys) := shares_matchedWithin (Nat.lt_succ_self _)
  constructor
  · intro h
    exact h.unique hmatched
  · rintro rfl
    exact hmatched

theorem Shares.le_length {xs ys : List Char} {n : Nat} (h : Shares xs ys n) : n ≤ xs.length ∧ n ≤ ys.length := by
  induction h with
  | nothing => exact ⟨Nat.zero_le _, Nat.zero_le _⟩
  | block hlongest _ _ ihleft ihright =>
    have hx := congrArg List.length hlongest.left
    have hy := congrArg List.length hlongest.right
    simp only [List.length_append] at hx hy
    omega

/-! ## Likeness -/

/-- The part of the characters of two texts that a number of characters makes up when it is shared by both. Two empty
texts have all their characters in common. -/
def shareOf (n : Nat) (xs ys : List Char) : ℚ :=
  if xs.length + ys.length = 0 then 1 else 2 * n / (xs.length + ys.length)

theorem four_fifths_le_shareOf_iff {n : Nat} {xs ys : List Char} :
    4 / 5 ≤ shareOf n xs ys ↔ 4 * (xs.length + ys.length) ≤ 10 * n := by
  unfold shareOf
  split
  · next h =>
    rw [h]
    norm_num
  · next h =>
    have hpos : (0 : ℚ) < xs.length + ys.length := by exact_mod_cast Nat.pos_of_ne_zero h
    rw [div_le_div_iff₀ (by norm_num) hpos]
    constructor
    · intro hle
      have hle : (4 * (xs.length + ys.length) : ℚ) ≤ 10 * n := by linarith
      exact_mod_cast hle
    · intro hle
      have hle : (4 * (xs.length + ys.length) : ℚ) ≤ 10 * n := by exact_mod_cast hle
      linarith

/-- **Texts are alike exactly if they share at least four fifths of their characters.** -/
theorem alike_iff {xs ys : List Char} : alike xs ys = true ↔ ∃ n, Shares xs ys n ∧ 4 / 5 ≤ shareOf n xs ys := by
  simp only [shares_iff, exists_eq_left, four_fifths_le_shareOf_iff, alike, Bool.and_eq_true, decide_eq_true_eq]
  obtain ⟨hx, hy⟩ := Shares.le_length (shares_iff.2 (rfl : matched xs ys = matched xs ys))
  omega

end Phrasebook.Text
