import Phrasebook.Text.Cut

/-!
# Where a text is cut

* `cutAt?_eq_none_iff` and `cutAtLast?_eq_none_iff`: a text is cut at a character exactly if it has one.
* `cutAtLast?_append`: the last cut of a text is that of any text that ends with it.
* `after?_eq_some_iff`: what is behind a beginning of a list is the rest of it.
* `infix_join`: each of several fields is a part of the text that they are joined to.
-/

namespace Phrasebook.Text

theorem cutAt?_eq_none_iff {c : Char} {cs : List Char} : cutAt? c cs = none ↔ c ∉ cs := by
  constructor
  · intro h hc
    obtain ⟨before, after, rfl, hnew⟩ := List.eq_append_cons_of_mem hc
    rw [cutAt?_append after hnew] at h
    cases h
  · intro h
    cases hcut : cutAt? c cs with
    | none => rfl
    | some cut =>
      rw [(cutAt?_eq_some hcut).1] at h
      exact absurd List.mem_append_cons_self h

theorem cutAtLast?_eq_none_iff {c : Char} {cs : List Char} : cutAtLast? c cs = none ↔ c ∉ cs := by
  rw [cutAtLast?, Option.map_eq_none_iff, cutAt?_eq_none_iff, List.mem_reverse]

/-- More text before changes only the first part of a cut. -/
theorem cutAtLast?_append {c : Char} {cs before after : List Char} (h : cutAtLast? c cs = some (before, after))
    (xs : List Char) : cutAtLast? c (xs ++ cs) = some (xs ++ before, after) := by
  obtain ⟨rfl, hc⟩ := cutAtLast?_eq_some_iff.1 h
  exact cutAtLast?_eq_some_iff.2 ⟨(List.append_assoc ..).symm, hc⟩

/-- Where a text is cut before a mark, the mark is in the second part. -/
theorem mem_of_cutAtLast?_append {c d : Char} {xs cs before after : List Char} (hc : c ∉ cs) (hd : c ≠ d)
    (h : cutAtLast? c (xs ++ d :: cs) = some (before, after)) : d ∈ after := by
  obtain ⟨h, -⟩ := cutAtLast?_eq_some_iff.1 h
  rcases List.append_eq_append_iff.1 h with ⟨middle, -, hcs⟩ | ⟨middle, -, hafter⟩
  · cases middle with
    | nil => exact absurd (List.cons.inj hcs).1.symm hd
    | cons x middle =>
      rw [(List.cons.inj hcs).2] at hc
      exact absurd List.mem_append_cons_self hc
  · cases middle with
    | nil => exact absurd (List.cons.inj hafter).1 hd
    | cons x middle =>
      rw [(List.cons.inj hafter).2]
      exact List.mem_append_cons_self

theorem after?_append (xs ys : List Char) : after? xs (xs ++ ys) = some ys := by
  induction xs with
  | nil => rfl
  | cons x xs ih => rw [List.cons_append, after?, if_pos (beq_self_eq_true x), ih]

/-- What is behind a beginning of a list is the rest of it. -/
theorem after?_eq_some_iff {xs ys zs : List Char} : after? xs ys = some zs ↔ ys = xs ++ zs := by
  constructor
  · intro h
    induction xs generalizing ys with
    | nil => exact Option.some.inj h
    | cons x xs ih =>
      cases ys with
      | nil => cases h
      | cons y ys =>
        rw [after?, Option.ite_none_right_eq_some, beq_iff_eq] at h
        obtain ⟨rfl, h⟩ := h
        rw [ih h, List.cons_append]
  · rintro rfl
    exact after?_append xs zs

/-- A field is a part of the text that it is joined into. -/
theorem infix_join {c : Char} {f : List Char} {fs : List (List Char)} (h : f ∈ fs) : f <:+: join c fs := by
  induction fs with
  | nil => cases h
  | cons g fs ih =>
    rcases List.mem_cons.1 h with rfl | h
    · cases fs with
      | nil => exact List.infix_rfl
      | cons g fs =>
        rw [join_cons c f (List.cons_ne_nil g fs)]
        exact (List.prefix_append f _).isInfix
    · rw [join_cons c g (List.ne_nil_of_mem h)]
      exact (ih h).trans ((List.suffix_cons c _).trans (List.suffix_append g _)).isInfix

end Phrasebook.Text
