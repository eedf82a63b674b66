import Phrasebook.Computation
import Phrasebook.Finding
import Mathlib.Data.List.Forall2

/-!
# Computations for the items of a list

* `mapM_eq_ok_iff`: a computation for each item of a list answers exactly if all of them do.
* `faultOf` is the fault of a computation, and `faultOf_mapM` that of the first item that has one.
* The outcome of an audit is the computation that is left when the findings are dropped (`Audit.outcome_bind`,
  `Audit.outcome_mapM`).
-/

namespace Phrasebook

variable {ε α β : Type}

/-- A computation for each item of a list answers exactly if all of them do. -/
theorem mapM_eq_ok_iff {f : α → Except ε β} : ∀ {xs : List α} {ys : List β},
    xs.mapM f = .ok ys ↔ List.Forall₂ (fun x y => f x = .ok y) xs ys := by
  intro xs
  induction xs with
  | nil =>
    intro ys
    rw [List.mapM_nil, List.forall₂_nil_left_iff]
    exact ⟨fun h => (by cases h; rfl), fun h => (by rw [h]; rfl)⟩
  | cons x xs ih =>
    intro ys
    simp only [List.mapM_cons, bind_eq_ok_iff, ih]
    constructor
    · rintro ⟨y, hy, zs, hz, h⟩
      cases h
      exact .cons hy hz
    · intro h
      cases h with
      | cons hy hz => exact ⟨_, hy, _, hz, rfl⟩

/-! ## The fault of a computation -/

/-- The fault of a computation, if it fails. -/
def faultOf : Except ε α → Option ε
  | .ok _ => none
  | .error e => some e

@[simp] theorem faultOf_eq_some_iff {x : Except ε α} {e : ε} : faultOf x = some e ↔ x = .error e := by
  cases x <;> simp [faultOf]

@[simp] theorem faultOf_eq_none_iff {x : Except ε α} : faultOf x = none ↔ ∃ a, x = .ok a := by
  cases x <;> simp [faultOf]

@[simp] theorem faultOf_error (e : ε) : faultOf (.error e : Except ε α) = some e := rfl

theorem faultOf_map (x : Except ε α) (f : α → β) : faultOf (x.map f) = faultOf x := by
  cases x <;> rfl

/-- Two computations in a row fail with the fault of the first one, or else with that of the second one. -/
theorem faultOf_bind (x : Except ε α) {f : α → Except ε β} {second : Option ε}
    (h : ∀ a, x = .ok a → faultOf (f a) = second) : faultOf (x >>= f) = (faultOf x).or second := by
  cases x with
  | error e => rfl
  | ok a => exact h a rfl

/-- What follows a computation and cannot fail adds no fault. -/
theorem faultOf_bind_of_answers (x : Except ε α) {f : α → Except ε β} (h : ∀ a, x = .ok a → faultOf (f a) = none) :
    faultOf (x >>= f) = faultOf x := by
  rw [faultOf_bind x h, Option.or_none]

/-- A computation for each item of a list fails with the fault of the first item that has one. -/
theorem faultOf_mapM (f : α → Except ε β) (xs : List α) :
    faultOf (xs.mapM f) = xs.findSome? fun x => faultOf (f x) := by
  induction xs with
  | nil => rfl
  | cons x xs ih =>
    have hrest : ∀ y, faultOf (xs.mapM f >>= fun ys => pure (y :: ys)) = faultOf (xs.mapM f) :=
      fun y => faultOf_bind_of_answers _ fun _ _ => rfl
    rw [List.mapM_cons, faultOf_bind _ fun y _ => hrest y, ih, List.findSome?_cons]
    cases faultOf (f x) <;> rfl

/-! ## Related lists -/

/-- Each item of the first list is related to one of the second. -/
theorem exists_of_forall₂ {R : α → β → Prop} {xs : List α} {ys : List β} (h : List.Forall₂ R xs ys) {x : α}
    (hx : x ∈ xs) : ∃ y ∈ ys, R x y := by
  induction h with
  | nil => cases hx
  | cons hr _ ih =>
    rcases List.mem_cons.1 hx with rfl | hx
    · exact ⟨_, List.mem_cons_self, hr⟩
    · obtain ⟨y, hy, hr⟩ := ih hx
      exact ⟨y, List.mem_cons_of_mem _ hy, hr⟩

/-- Where each item is related to one item only, related lists have those items. -/
theorem forall₂_iff_eq_map {R : α → β → Prop} {f : α → β} (h : ∀ x y, R x y ↔ y = f x) {xs : List α} {ys : List β} :
    List.Forall₂ R xs ys ↔ ys = xs.map f := by
  rw [eq_comm, ← List.forall₂_eq_eq_eq, List.forall₂_map_left_iff]
  constructor
  · exact List.Forall₂.imp fun x y hr => ((h x y).1 hr).symm
  · exact List.Forall₂.imp fun x y heq => (h x y).2 heq.symm

namespace Audit

theorem outcome_pure (a : α) : (pure a : Audit α).outcome = .ok a := rfl

theorem outcome_bind (x : Audit α) (f : α → Audit β) : (x >>= f).outcome = x.outcome >>= fun a => (f a).outcome := by
  obtain ⟨findings, outcome⟩ := x
  cases outcome <;> rfl

theorem ofExcept_ok_bind (a : α) (f : α → Audit β) : (ofExcept (.ok a) >>= f) = f a := rfl

theorem andThen_pure (x : Audit α) : x.andThen pure = x := by
  obtain ⟨findings, outcome⟩ := x
  cases outcome <;> simp [andThen, pure]

theorem pure_andThen (a : α) (f : α → Audit β) : (pure a : Audit α).andThen f = f a := by
  simp [andThen, pure]

theorem andThen_assoc {γ : Type} (x : Audit α) (f : α → Audit β) (g : β → Audit γ) :
    (x.andThen f).andThen g = x.andThen fun a => (f a).andThen g := by
  obtain ⟨findings, outcome⟩ := x
  cases outcome with
  | error fault => rfl
  | ok a =>
    simp only [andThen]
    cases (f a).outcome <;> simp [List.append_assoc]

instance : LawfulMonad Audit := LawfulMonad.mk' Audit andThen_pure pure_andThen andThen_assoc

theorem outcome_mapM (f : α → Audit β) (xs : List α) : (xs.mapM f).outcome = xs.mapM fun x => (f x).outcome := by
  induction xs with
  | nil => rfl
  | cons x xs ih => simp only [List.mapM_cons, outcome_bind, ih, outcome_pure]; rfl

end Audit

end Phrasebook
