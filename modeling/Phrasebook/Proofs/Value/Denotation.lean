import Phrasebook.Proofs.Number.Exact
import Phrasebook.Proofs.Value.Alike

/-!
# What values without parts stand for

Values of different kinds can be equal: a truth value, a whole number and a double are if they are the same number, and
two moments with an offset are if they are the same instant.

* `Value.denotation?` is what a value without parts stands for; what is not a number stands for nothing.
* `Value.agrees_iff`: values are equal, as tables compare their keys, exactly if they stand for the same.
-/

namespace Phrasebook

/-! ## Doubles -/

namespace Binary64

variable {m m' : Nat} {e e' : Int}

/-- A mantissa and an exponent in canonical form are told by their value. -/
theorem Canonical.eq_of_le (h : Canonical m e) (h' : Canonical m' e') (hle : e ≤ e')
    (hv : (m : ℚ) * 2 ^ e = m' * 2 ^ e') : m = m' ∧ e = e' := by
  obtain ⟨d, hd⟩ := Int.eq_ofNat_of_zero_le (show 0 ≤ e' - e by omega)
  obtain rfl : e' = e + d := by omega
  have hm : m = m' * 2 ^ d := by
    rw [zpow_add₀ two_ne_zero, zpow_natCast, mul_comm ((2 : ℚ) ^ e), ← mul_assoc] at hv
    exact_mod_cast mul_right_cancel₀ (zpow_ne_zero e two_ne_zero) hv
  obtain ⟨hlt, hlow, -, -⟩ := h
  obtain ⟨-, -, -, hnormal⟩ := h'
  cases d with
  | zero => exact ⟨by simpa using hm, by simp⟩
  | succ d =>
    -- the larger exponent is not the least one, so its mantissa has all its binary places
    rcases hnormal with hnormal | hleast
    · have hdouble : 2 * m' ≤ m := by
        rw [hm, Nat.pow_succ, ← Nat.mul_assoc, Nat.mul_comm]
        exact Nat.mul_le_mul_right 2 (Nat.le_mul_of_pos_right m' (Nat.two_pow_pos d))
      omega
    · omega

theorem Canonical.eq_of_value_eq (h : Canonical m e) (h' : Canonical m' e') (hv : (m : ℚ) * 2 ^ e = m' * 2 ^ e') :
    m = m' ∧ e = e' := by
  rcases Int.le_total e e' with hle | hle
  · exact h.eq_of_le h' hle hv
  · obtain ⟨hm, he⟩ := h'.eq_of_le h hle hv.symm
    exact ⟨hm.symm, he.symm⟩

/-- Doubles are the same number exactly if their exact values are equal, or they are the same infinity. -/
theorem same_iff {x y : Binary64} : x.same y = true ↔
    (∃ q, x.rational? = some q ∧ y.rational? = some q) ∨ ∃ negative, x = infinite negative ∧ y = infinite negative := by
  cases x with
  | nan => simp [same, rational?]
  | infinite negative => cases y <;> simp [same, rational?, eq_comm]
  | finite negative m e h =>
    cases y with
    | nan => simp [same, rational?]
    | infinite negative' => simp [same, rational?]
    | finite negative' m' e' h' =>
      simp only [same, rational?, Option.some_inj, exists_eq_left', reduceCtorEq, false_and, exists_false, or_false,
        Bool.and_eq_true, Bool.or_eq_true, decide_eq_true_eq]
      constructor
      · rintro ⟨⟨rfl, rfl⟩, rfl | rfl⟩ <;> simp
      · intro hv
        have hnonneg : 0 ≤ (m : ℚ) * 2 ^ e := by positivity
        have hnonneg' : 0 ≤ (m' : ℚ) * 2 ^ e' := by positivity
        have hmagnitude : (m : ℚ) * 2 ^ e = m' * 2 ^ e' := by
          cases negative <;> cases negative' <;> simp at hv <;> linarith
        obtain ⟨rfl, rfl⟩ := h.eq_of_value_eq h' hmagnitude
        refine ⟨⟨rfl, rfl⟩, ?_⟩
        -- a number that is its own opposite is zero
        have hzero : (m : ℚ) * 2 ^ e = 0 → m = 0 := fun h0 => by
          simpa [zpow_ne_zero] using h0
        cases negative <;> cases negative' <;> simp at hv <;> simp
        · exact hzero (by linarith)
        · exact hzero (by linarith)

end Binary64

/-! ## Values without parts -/

namespace Value

/-- What a value without parts stands for. -/
inductive Denotation where
  | nothing
  | number (q : ℚ)
  | infinity (negative : Bool)
  | text (s : String)
  | date (d : Calendar.Date)
  /-- an instant, and whether it is one of universal time -/
  | instant (universal : Bool) (micros : Int)
  | clock (t : Calendar.Clock)
  | bytes (bs : List UInt8)

/-- What a value stands for, if it has no parts and is not a double that is not a number. -/
def denotation? : Value → Option Denotation
  | null => some .nothing
  | bool b => some (.number b.toInt)
  | int n => some (.number n)
  | float (.infinite negative) => some (.infinity negative)
  | float x => x.rational?.map .number
  | text s => some (.text s)
  | date d => some (.date d)
  | moment m => some (.instant m.offset.isSome m.instant)
  | clock t => some (.clock t)
  | bytes bs => some (.bytes bs)
  | list _ | table _ => none

variable {v w : Value} {d : Denotation}

theorem denotation?_float_eq_number {x : Binary64} {q : ℚ} :
    (float x).denotation? = some (.number q) ↔ x.rational? = some q := by
  cases x <;> simp [denotation?, Binary64.rational?]

theorem denotation?_float {x : Binary64} (h : (float x).denotation? = some d) :
    (∃ q, d = .number q ∧ x.rational? = some q) ∨ ∃ negative, d = .infinity negative ∧ x = .infinite negative := by
  cases x with
  | finite => exact Or.inl ⟨_, (Option.some.inj h).symm, rfl⟩
  | infinite negative => exact Or.inr ⟨negative, (Option.some.inj h).symm, rfl⟩
  | nan => cases h

/-- Values without parts are equal exactly if they stand for the same. -/
theorem agreesAsScalar_iff : v.agreesAsScalar w = true ↔ ∃ d, v.denotation? = some d ∧ w.denotation? = some d := by
  cases v <;> cases w
  case float.float x y =>
    rw [agreesAsScalar, Binary64.same_iff]
    constructor
    · rintro (⟨q, hx, hy⟩ | ⟨negative, rfl, rfl⟩)
      · exact ⟨.number q, denotation?_float_eq_number.2 hx, denotation?_float_eq_number.2 hy⟩
      · exact ⟨.infinity negative, rfl, rfl⟩
    · rintro ⟨d, hx, hy⟩
      rcases denotation?_float hx with ⟨q, rfl, hq⟩ | ⟨negative, rfl, rfl⟩
      · exact Or.inl ⟨q, hq, denotation?_float_eq_number.1 hy⟩
      · rcases denotation?_float hy with ⟨q, hd, -⟩ | ⟨negative', hd, rfl⟩
        · cases hd
        · cases hd
          exact Or.inr ⟨negative, rfl, rfl⟩
  case float.bool x b | bool.float b x =>
    simp [agreesAsScalar, Binary64.toInt?_eq_some_iff, ← denotation?_float_eq_number, denotation?]
  case float.int x n | int.float n x =>
    simp [agreesAsScalar, Binary64.toInt?_eq_some_iff, ← denotation?_float_eq_number, denotation?]
  case float.null x | float.text x _ | float.date x _ | float.moment x _ | float.clock x _ | float.bytes x _ |
      float.list x _ | float.table x _ | null.float x | text.float _ x | date.float _ x | moment.float _ x |
      clock.float _ x | bytes.float _ x | list.float _ x | table.float _ x =>
    cases x <;> simp [agreesAsScalar, denotation?, Binary64.rational?]
  case moment.moment a b =>
    simp [agreesAsScalar, denotation?, Calendar.Moment.sameInstant_iff, eq_comm (a := a.offset.isSome),
      eq_comm (a := a.instant)]
  case bool.bool a b => cases a <;> cases b <;> simp [agreesAsScalar, denotation?]
  case int.bool a b | int.int a b | text.text a b | date.date a b | clock.clock a b | bytes.bytes a b =>
    simp [agreesAsScalar, denotation?, eq_comm (a := a)]
  all_goals simp [agreesAsScalar, denotation?]

theorem isScalar_of_denotation? (h : v.denotation? = some d) : v.isScalar = true := by
  cases v <;> first | rfl | cases h

/-- **Values are equal exactly if they stand for the same**, where one of them stands for something. -/
theorem agrees_iff (h : v.denotation? = some d) : v.agrees w = true ↔ w.denotation? = some d := by
  rw [agrees_eq_agreesAsScalar (isScalar_of_denotation? h), agreesAsScalar_iff, h]
  simp

/-- A value with parts is not equal to one without. -/
theorem agrees_eq_false_of_isScalar (hv : v.isScalar = false) (hw : w.isScalar = true) : v.agrees w = false := by
  cases v <;> cases hv <;> cases w <;> simp_all [agrees, agreesBy, agreesAsScalar, isScalar]

theorem agrees_iff_right (h : w.denotation? = some d) : v.agrees w = true ↔ v.denotation? = some d := by
  cases hs : v.isScalar with
  | true =>
    rw [agrees_eq_agreesAsScalar hs, agreesAsScalar_iff, h]
    simp
  | false =>
    rw [agrees_eq_false_of_isScalar hs (isScalar_of_denotation? h)]
    refine iff_of_false Bool.false_ne_true fun hv => ?_
    rw [isScalar_of_denotation? hv] at hs
    cases hs

end Value

end Phrasebook
