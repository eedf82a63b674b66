import Phrasebook.Template.Directive
import Mathlib.Data.List.Basic

/-!
# Balanced braces

`Closes depth cs` says that `cs` closes `depth` open braces besides those that it opens itself, each after it was
opened; a text is `Balanced` when it does so with none.

* Reading is counting: the brace found by `closingBrace?` stands behind a text that closes what was open
  (`closes_take_of_closingBrace?`), and behind such a text it is found (`closingBrace?_append`).
-/

namespace Phrasebook.Template

/-- The braces of a text are balanced: no beginning closes more than it opens, and all that is opened is closed. -/
def Balanced (cs : List Char) : Prop :=
  (∀ start, start <+: cs → start.count '}' ≤ start.count '{') ∧ cs.count '{' = cs.count '}'

/-- A text closes `depth` braces that were open before it, and every brace that it opens. -/
def Closes (depth : Nat) (cs : List Char) : Prop :=
  (∀ start, start <+: cs → start.count '}' ≤ depth + start.count '{') ∧ cs.count '}' = depth + cs.count '{'

theorem closes_zero_iff {cs : List Char} : Closes 0 cs ↔ Balanced cs := by
  simp only [Closes, Balanced, Nat.zero_add]
  exact and_congr_right fun _ => eq_comm

@[simp] theorem closes_nil_iff {depth : Nat} : Closes depth [] ↔ depth = 0 := by
  simp [Closes, eq_comm]

/-- What a text closes, character by character. -/
theorem closes_cons_iff {depth : Nat} {c : Char} {cs : List Char} :
    Closes depth (c :: cs) ↔ ∃ after, depth + [c].count '{' = after + [c].count '}' ∧ Closes after cs := by
  constructor
  · rintro ⟨hs, ht⟩
    have h₁ := hs [c] (by simp)
    refine ⟨depth + [c].count '{' - [c].count '}', by omega, fun start hp => ?_, ?_⟩
    · have := hs (c :: start) (List.cons_prefix_cons.2 ⟨rfl, hp⟩)
      rw [← List.singleton_append, List.count_append, List.count_append] at this
      omega
    · rw [← List.singleton_append, List.count_append, List.count_append] at ht
      omega
  · rintro ⟨after, ha, hs, ht⟩
    refine ⟨fun start hp => ?_, ?_⟩
    · rcases List.prefix_cons_iff.1 hp with rfl | ⟨inner, rfl, hi⟩
      · simp
      · have := hs inner hi
        rw [← List.singleton_append, List.count_append, List.count_append]
        omega
    · rw [← List.singleton_append, List.count_append, List.count_append]
      omega

theorem closes_open_iff {depth : Nat} {cs : List Char} : Closes depth ('{' :: cs) ↔ Closes (depth + 1) cs := by
  simp [closes_cons_iff, eq_comm]

theorem not_closes_zero_close {cs : List Char} : ¬Closes 0 ('}' :: cs) := by
  simp [closes_cons_iff]

theorem closes_close_iff {depth : Nat} {cs : List Char} : Closes (depth + 1) ('}' :: cs) ↔ Closes depth cs := by
  simp [closes_cons_iff, eq_comm]

theorem closes_other_iff {depth : Nat} {c : Char} {cs : List Char} (h₁ : c ≠ '{') (h₂ : c ≠ '}') :
    Closes depth (c :: cs) ↔ Closes depth cs := by
  simp [closes_cons_iff, h₁, h₂]

/-! ## Finding the brace -/

theorem closingBrace?_open (depth : Nat) (cs : List Char) :
    closingBrace? depth ('{' :: cs) = (closingBrace? (depth + 1) cs).map (· + 1) := by
  cases depth <;> rfl

theorem closingBrace?_close (depth : Nat) (cs : List Char) :
    closingBrace? (depth + 1) ('}' :: cs) = (closingBrace? depth cs).map (· + 1) := rfl

theorem closingBrace?_other {depth : Nat} {c : Char} {cs : List Char} (h₁ : c ≠ '{') (h₂ : c ≠ '}') :
    closingBrace? depth (c :: cs) = (closingBrace? depth cs).map (· + 1) := by
  cases depth <;> simp [closingBrace?, h₁, h₂]

/-- Behind a text that closes what is open, the brace that is found is the next one. -/
theorem closingBrace?_append {content : List Char} (rest : List Char) :
    ∀ {depth : Nat}, Closes depth content → closingBrace? depth (content ++ '}' :: rest) = some content.length := by
  induction content with
  | nil =>
    intro depth h
    rw [closes_nil_iff] at h
    subst h
    rfl
  | cons c cs ih =>
    intro depth h
    by_cases ho : c = '{'
    · subst ho
      rw [List.cons_append, closingBrace?_open, ih (closes_open_iff.1 h)]
      rfl
    · by_cases hc : c = '}'
      · subst hc
        cases depth with
        | zero => exact absurd h not_closes_zero_close
        | succ depth =>
          rw [List.cons_append, closingBrace?_close, ih (closes_close_iff.1 h)]
          rfl
      · rw [List.cons_append, closingBrace?_other ho hc, ih ((closes_other_iff ho hc).1 h)]
        rfl

/-- The text before the brace that is found closes what was open. -/
theorem closes_take_of_closingBrace? {cs : List Char} : ∀ {depth n : Nat}, closingBrace? depth cs = some n →
    cs = cs.take n ++ '}' :: cs.drop (n + 1) ∧ Closes depth (cs.take n) := by
  induction cs with
  | nil => intro depth n h; cases depth <;> cases h
  | cons c cs ih =>
    intro depth n h
    by_cases ho : c = '{'
    · subst ho
      rw [closingBrace?_open] at h
      obtain ⟨m, hm, rfl⟩ := Option.map_eq_some_iff.1 h
      obtain ⟨he, hcl⟩ := ih hm
      exact ⟨congrArg (List.cons '{') he, closes_open_iff.2 hcl⟩
    · by_cases hc : c = '}'
      · subst hc
        cases depth with
        | zero => cases h; exact ⟨rfl, closes_nil_iff.2 rfl⟩
        | succ depth =>
          rw [closingBrace?_close] at h
          obtain ⟨m, hm, rfl⟩ := Option.map_eq_some_iff.1 h
          obtain ⟨he, hcl⟩ := ih hm
          exact ⟨congrArg (List.cons '}') he, closes_close_iff.2 hcl⟩
      · rw [closingBrace?_other ho hc] at h
        obtain ⟨m, hm, rfl⟩ := Option.map_eq_some_iff.1 h
        obtain ⟨he, hcl⟩ := ih hm
        exact ⟨congrArg (List.cons c) he, (closes_other_iff ho hc).2 hcl⟩

end Phrasebook.Template
