/-!
# Cutting text

A text is cut at a character or at a longer mark, at its first or its last occurrence.

* `cutAt?` and `cutAtLast?` give the parts on both sides of one character.
* `cutAround?` gives the parts on both sides of the first occurrence of a mark.
* `fields` cuts at every occurrence; `join` is its inverse.
-/

namespace Phrasebook.Text

/-- The parts before and after the first `c`. -/
def cutAt? (c : Char) (cs : List Char) : Option (List Char × List Char) :=
  match cs.dropWhile (· != c) with
  | [] => none
  | _ :: after => some (cs.takeWhile (· != c), after)

/-- The parts before and after the last `c`. -/
def cutAtLast? (c : Char) (cs : List Char) : Option (List Char × List Char) :=
  (cutAt? c cs.reverse).map fun (after, before) => (before.reverse, after.reverse)

/-- The parts before and after the first occurrence of `mark`. -/
def cutAround? (mark : List Char) : List Char → Option (List Char × List Char)
  | [] => if mark.isEmpty then some ([], []) else none
  | c :: cs =>
    if mark.isPrefixOf (c :: cs) then some ([], (c :: cs).drop mark.length)
    else (cutAround? mark cs).map fun (before, after) => (c :: before, after)

/-- What follows a beginning of a list. -/
def after? {α : Type} [BEq α] : List α → List α → Option (List α)
  | [], ys => some ys
  | _ :: _, [] => none
  | x :: xs, y :: ys => if x == y then after? xs ys else none

/-- The parts between the occurrences of `c`: one more than there are occurrences. -/
def fields (c : Char) : List Char → List (List Char)
  | [] => [[]]
  | x :: xs =>
    if x = c then [] :: fields c xs
    else match fields c xs with
      | [] => [[x]]
      | f :: fs => (x :: f) :: fs

/-- The fields with `c` between them. -/
def join (c : Char) : List (List Char) → List Char
  | [] => []
  | [f] => f
  | f :: fs => f ++ c :: join c fs

/-- The two parts and the character between them are the text, and the first part does not hold the character. -/
theorem cutAt?_eq_some {c : Char} {cs before after : List Char} (h : cutAt? c cs = some (before, after)) :
    cs = before ++ c :: after ∧ c ∉ before := by
  unfold cutAt? at h
  split at h
  · simp at h
  · next x xs hd =>
    simp only [Option.some.injEq, Prod.mk.injEq] at h
    obtain ⟨rfl, rfl⟩ := h
    have hx : x = c := by
      have := List.head?_dropWhile_not (· != c) cs
      simpa [hd] using this
    constructor
    · subst hx; rw [← hd, List.takeWhile_append_dropWhile]
    · intro hm
      have := List.all_takeWhile (p := (· != c)) (l := cs)
      rw [List.all_eq_true] at this
      simpa using this c hm

/-- A text is cut where the first part does not hold the character. -/
theorem cutAt?_append {c : Char} {before : List Char} (after : List Char) (h : c ∉ before) :
    cutAt? c (before ++ c :: after) = some (before, after) := by
  have hb : ∀ x ∈ before, (x != c) = true := by
    intro x hx
    rw [bne_iff_ne]
    rintro rfl
    exact h hx
  rw [cutAt?, List.dropWhile_append_of_pos hb, List.takeWhile_append_of_pos hb]
  simp

/-- The text is cut at the last occurrence of the character. -/
theorem cutAtLast?_eq_some_iff {c : Char} {cs before after : List Char} :
    cutAtLast? c cs = some (before, after) ↔ cs = before ++ c :: after ∧ c ∉ after := by
  unfold cutAtLast?
  constructor
  · intro h
    obtain ⟨⟨after', before'⟩, hcut, he⟩ := Option.map_eq_some_iff.1 h
    cases he
    obtain ⟨hcs, hc⟩ := cutAt?_eq_some hcut
    refine ⟨?_, by simpa using hc⟩
    rw [← List.reverse_reverse cs, hcs]
    simp
  · rintro ⟨rfl, hc⟩
    have hr : (before ++ c :: after).reverse = after.reverse ++ c :: before.reverse := by simp
    rw [hr, cutAt?_append _ (by simpa using hc)]
    simp

theorem length_after_cutAt? {c : Char} {cs before after : List Char} (h : cutAt? c cs = some (before, after)) :
    after.length < cs.length := by
  rw [(cutAt?_eq_some h).1]; simp; omega

theorem fields_ne_nil (c : Char) (cs : List Char) : fields c cs ≠ [] := by
  cases cs with
  | nil => simp [fields]
  | cons x xs =>
    rw [fields]
    split
    · simp
    · split <;> simp

theorem join_cons (c : Char) (f : List Char) {fs : List (List Char)} (h : fs ≠ []) :
    join c (f :: fs) = f ++ c :: join c fs := by
  cases fs with
  | nil => exact absurd rfl h
  | cons g gs => rfl

theorem join_cons_cons (c x : Char) (f : List Char) (fs : List (List Char)) :
    join c ((x :: f) :: fs) = x :: join c (f :: fs) := by
  cases fs with
  | nil => rfl
  | cons g gs => rfl

/-- Cutting loses nothing. -/
@[simp] theorem join_fields (c : Char) (cs : List Char) : join c (fields c cs) = cs := by
  induction cs with
  | nil => rfl
  | cons x xs ih =>
    rw [fields]
    split
    · next h => rw [join_cons c [] (fields_ne_nil c xs), ih, h]; rfl
    · split
      · next h => exact absurd h (fields_ne_nil c xs)
      · next f fs h => rw [join_cons_cons, ← h, ih]

/-- The fields of a text with the character in it are those before it and those behind it. -/
theorem fields_append_cons (c : Char) (xs ys : List Char) : fields c (xs ++ c :: ys) = fields c xs ++ fields c ys := by
  induction xs with
  | nil => simp [fields]
  | cons x xs ih =>
    rw [List.cons_append, fields, fields, ih]
    by_cases h : x = c
    · simp [h]
    · obtain ⟨f, fs, hf⟩ := List.exists_cons_of_ne_nil (fields_ne_nil c xs)
      simp [h, hf]

/-- A text without the character is one field. -/
theorem fields_of_not_mem {c : Char} {f : List Char} (hf : c ∉ f) : fields c f = [f] := by
  induction f with
  | nil => rfl
  | cons x f ih =>
    rw [List.mem_cons, not_or] at hf
    rw [fields, if_neg (Ne.symm hf.1), ih hf.2]

/-- Fields that do not hold the character are what the text of them is cut into. -/
theorem fields_join {c : Char} : ∀ {fs : List (List Char)}, fs ≠ [] → (∀ f ∈ fs, c ∉ f) →
    fields c (join c fs) = fs := by
  intro fs hne hc
  induction fs with
  | nil => exact absurd rfl hne
  | cons f fs ih =>
    have hf := hc f List.mem_cons_self
    cases fs with
    | nil => exact fields_of_not_mem hf
    | cons g gs =>
      rw [join_cons c f (List.cons_ne_nil g gs), fields_append_cons, fields_of_not_mem hf,
        ih (List.cons_ne_nil g gs) fun x hx => hc x (List.mem_cons_of_mem f hx), List.singleton_append]

/-- No field holds the character cut at. -/
theorem not_mem_of_mem_fields {c : Char} {cs f : List Char} (h : f ∈ fields c cs) : c ∉ f := by
  induction cs generalizing f with
  | nil => simp only [fields, List.mem_singleton] at h; simp [h]
  | cons x xs ih =>
    rw [fields] at h
    split at h
    · rcases List.mem_cons.1 h with rfl | h
      · simp
      · exact ih h
    · next hx =>
      split at h
      · next hn => exact absurd hn (fields_ne_nil c xs)
      · next g gs hg =>
        rcases List.mem_cons.1 h with rfl | h
        · have := ih (hg ▸ List.mem_cons_self : g ∈ fields c xs)
          simp only [List.mem_cons, not_or]
          exact ⟨fun hc => hx hc.symm, this⟩
        · exact ih (hg ▸ List.mem_cons_of_mem g h)

end Phrasebook.Text
