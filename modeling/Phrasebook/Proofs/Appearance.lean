import Mathlib.Data.List.Basic
import Mathlib.Data.List.Induction

/-!
# Order of first appearance

`FirstSeen firsts all` says that `firsts` has the members of `all`, each once, in the order in which they first come.

* `firstSeen_eraseDups`: dropping what came before leaves the members in that order.
* `FirstSeen.find?_eq_some_iff`: the first of them with a property is the one that comes before all others with it.
-/

namespace Phrasebook

variable {α : Type} [DecidableEq α] {firsts all : List α}

/-- The members of a list, each once, in the order in which they first come. -/
structure FirstSeen (firsts all : List α) : Prop where
  mem_iff : ∀ a, a ∈ firsts ↔ a ∈ all
  ordered : firsts.Pairwise fun a b => all.idxOf a < all.idxOf b

namespace FirstSeen

theorem nil : FirstSeen ([] : List α) [] := ⟨fun _ => Iff.rfl, .nil⟩

theorem nodup (h : FirstSeen firsts all) : firsts.Nodup := by
  refine h.ordered.imp ?_
  rintro a b hlt rfl
  exact absurd hlt (Nat.lt_irrefl _)

/-- Members keep their order when the list goes on. -/
theorem ordered_append (h : FirstSeen firsts all) (more : List α) :
    firsts.Pairwise fun a b => (all ++ more).idxOf a < (all ++ more).idxOf b := by
  refine h.ordered.imp_of_mem ?_
  intro a b ha hb hlt
  rw [List.idxOf_append_of_mem ((h.mem_iff a).1 ha), List.idxOf_append_of_mem ((h.mem_iff b).1 hb)]
  exact hlt

/-- What has come before changes nothing. -/
theorem concat_of_mem (h : FirstSeen firsts all) {a : α} (ha : a ∈ all) : FirstSeen firsts (all ++ [a]) := by
  refine ⟨fun b => ?_, h.ordered_append [a]⟩
  rw [h.mem_iff, List.mem_append, List.mem_singleton]
  constructor
  · exact Or.inl
  · rintro (hb | rfl)
    · exact hb
    · exact ha

/-- What has not come before is last. -/
theorem concat_of_not_mem (h : FirstSeen firsts all) {a : α} (ha : a ∉ all) :
    FirstSeen (firsts ++ [a]) (all ++ [a]) := by
  refine ⟨fun b => ?_, ?_⟩
  · rw [List.mem_append, List.mem_append, h.mem_iff]
  · refine List.pairwise_append.2 ⟨h.ordered_append [a], List.pairwise_singleton _ a, ?_⟩
    intro b hb c hc
    obtain rfl := List.mem_singleton.1 hc
    have hb := (h.mem_iff b).1 hb
    rw [List.idxOf_append_of_mem hb, List.idxOf_append_of_notMem ha]
    have := List.idxOf_lt_length_of_mem hb
    omega

/-- The first member in the order of appearance with a property is the one that appears before all others with it. -/
theorem find?_eq_some_iff (h : FirstSeen firsts all) {p : α → Bool} {a : α} :
    firsts.find? p = some a ↔ a ∈ all ∧ p a = true ∧ ∀ b ∈ all, p b = true → all.idxOf a ≤ all.idxOf b := by
  have hfound : ∀ {a}, firsts.find? p = some a → ∀ b ∈ all, p b = true → all.idxOf a ≤ all.idxOf b := by
    intro a ha b hb hpb
    obtain ⟨-, before, after, hfirsts, hbefore⟩ := List.find?_eq_some_iff_append.1 ha
    have hmem := (h.mem_iff b).2 hb
    have hordered := h.ordered
    rw [hfirsts] at hmem hordered
    rcases List.mem_append.1 hmem with hmem | hmem
    · have hno := hbefore b hmem
      rw [hpb] at hno
      cases hno
    · rcases List.mem_cons.1 hmem with rfl | hmem
      · exact Nat.le_refl _
      · exact Nat.le_of_lt ((List.pairwise_cons.1 (List.pairwise_append.1 hordered).2.1).1 b hmem)
  constructor
  · intro ha
    exact ⟨(h.mem_iff a).1 (List.mem_of_find?_eq_some ha), List.find?_some ha, hfound ha⟩
  · rintro ⟨hmem, hp, hfirst⟩
    cases hf : firsts.find? p with
    | none => exact absurd hp (List.find?_eq_none.1 hf a ((h.mem_iff a).2 hmem))
    | some b =>
      have hb := (h.mem_iff b).1 (List.mem_of_find?_eq_some hf)
      have hle := hfirst b hb (List.find?_some hf)
      have hge := hfound hf a hmem hp
      rw [(List.idxOf_inj hmem).1 (Nat.le_antisymm hle hge)]

end FirstSeen

theorem eraseDups_concat (xs : List α) (a : α) :
    (xs ++ [a]).eraseDups = if a ∈ xs then xs.eraseDups else xs.eraseDups ++ [a] := by
  rw [List.eraseDups_append]
  by_cases ha : a ∈ xs <;> simp [List.removeAll, List.eraseDups_cons, ha]

/-- Dropping what came before leaves the members in the order in which they first come. -/
theorem firstSeen_eraseDups (xs : List α) : FirstSeen xs.eraseDups xs := by
  induction xs using List.reverseRecOn with
  | nil => exact .nil
  | append_singleton xs a ih =>
    rw [eraseDups_concat]
    split
    · next ha => exact ih.concat_of_mem ha
    · next ha => exact ih.concat_of_not_mem ha

end Phrasebook
