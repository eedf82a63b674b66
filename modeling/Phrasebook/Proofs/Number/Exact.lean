import Mathlib.Algebra.Order.Field.Rat
import Mathlib.Algebra.Order.Field.Power
import Mathlib.Data.Nat.Digits.Lemmas
import Mathlib.Tactic.Positivity
import Phrasebook.Text.Digit
import Phrasebook.Value.Basic

/-!
# The exact number that a value is

* `Value.rational?` is a value as a rational number: a whole number itself, a double its mantissa times its power of
  two. An infinity and what is not a number are no rational number.
* `Value.agrees_int_iff`: a count agrees with a whole number exactly if it is that number, with no rounding.
* `Text.Stands`: the number that a row of digits stands for, by the weights of its places.
-/

namespace Phrasebook

/-! ## Doubles -/

namespace Binary64

/-- The number that a double is, if it is one. -/
def rational? : Binary64 → Option ℚ
  | .finite negative m e _ => some (if negative then -(m * 2 ^ e) else m * 2 ^ e)
  | .infinite _ | .nan => none

variable {m k : Nat} {e : Int}

/-- The whole value of a mantissa and an exponent is their exact value. -/
theorem whole?_eq_some_iff : whole? m e = some k ↔ (m : ℚ) * 2 ^ e = k := by
  rw [whole?]
  split
  · next he =>
    obtain ⟨d, rfl⟩ := Int.eq_ofNat_of_zero_le he
    rw [Option.some_inj, Int.toNat_natCast, Nat.shiftLeft_eq, zpow_natCast]
    exact_mod_cast Iff.rfl
  · next he =>
    obtain ⟨d, hd⟩ := Int.eq_ofNat_of_zero_le (show 0 ≤ -e by omega)
    obtain rfl : e = -d := by omega
    have hpos : 0 < 2 ^ d := Nat.two_pow_pos d
    rw [Option.ite_none_right_eq_some, Option.some_inj, neg_neg, Int.toNat_natCast, Nat.one_shiftLeft, zpow_neg,
      zpow_natCast, ← div_eq_mul_inv, div_eq_iff (by positivity)]
    have hcast : (m : ℚ) = k * 2 ^ d ↔ m = k * 2 ^ d := by exact_mod_cast Iff.rfl
    rw [hcast]
    constructor
    · rintro ⟨hmod, rfl⟩
      exact (Nat.div_mul_cancel (Nat.dvd_of_mod_eq_zero hmod)).symm
    · rintro rfl
      exact ⟨Nat.mul_mod_left k _, Nat.mul_div_cancel k hpos⟩

theorem toInt?_finite {negative : Bool} {h : Canonical m e} {n : Int} :
    (finite negative m e h).toInt? = some n ↔ ∃ k, whole? m e = some k ∧ (if negative then -(k : Int) else k) = n := by
  cases hw : whole? m e with
  | none => simp [toInt?, hw]
  | some k => simp [toInt?, hw]

/-- A double is a whole number exactly if that is its exact value. -/
theorem toInt?_eq_some_iff {x : Binary64} {n : Int} : x.toInt? = some n ↔ x.rational? = some (n : ℚ) := by
  cases x with
  | infinite _ => simp [toInt?, rational?]
  | nan => simp [toInt?, rational?]
  | finite negative m e _ =>
    have hnonneg : 0 ≤ (m : ℚ) * 2 ^ e := by positivity
    rw [toInt?_finite, rational?, Option.some_inj]
    simp only [whole?_eq_some_iff]
    constructor
    · rintro ⟨k, hk, rfl⟩
      cases negative <;> simp [hk]
    · intro hn
      -- the magnitude is the number without its sign
      cases negative with
      | false =>
        rw [if_neg Bool.false_ne_true] at hn
        have h0 : 0 ≤ n := by exact_mod_cast hn ▸ hnonneg
        obtain ⟨k, rfl⟩ := Int.eq_ofNat_of_zero_le h0
        exact ⟨k, hn, rfl⟩
      | true =>
        rw [if_pos rfl, neg_eq_iff_eq_neg] at hn
        have h0 : 0 ≤ -n := by exact_mod_cast hn ▸ hnonneg
        obtain ⟨k, hk⟩ := Int.eq_ofNat_of_zero_le h0
        refine ⟨k, hn.trans (by exact_mod_cast hk), ?_⟩
        rw [if_pos rfl, ← hk, neg_neg]

end Binary64

/-! ## Counts -/

/-- The number that a value is, if it is one. -/
def Value.rational? : Value → Option ℚ
  | .int n => some n
  | .float x => x.rational?
  | _ => none

/-- **A count agrees with a whole number exactly if it is that number.** -/
theorem Value.agrees_int_iff {count : Value} (hc : count.isNumber = true) {n : Int} :
    count.agrees (.int n) = true ↔ count.rational? = some (n : ℚ) := by
  cases count with
  | int k => simp [agrees, agreesBy, agreesAsScalar, rational?]
  | float x => simp [agrees, agreesBy, agreesAsScalar, rational?, Binary64.toInt?_eq_some_iff]
  | _ => cases hc

/-! ## Digits -/

namespace Text

/-- The number that a row of digits stands for: each digit has the value of its character, the last one counts once and
each other one ten times as much as the one behind it. -/
def Stands (digits : List Char) (n : Nat) : Prop :=
  ∃ places : List Nat, digits.map digitValue? = places.map some ∧ n = Nat.ofDigits 10 places.reverse

variable {digits : List Char} {places : List Nat}

theorem numeral_eq_ofDigits (h : digits.map digitValue? = places.map some) :
    numeral digits = Nat.ofDigits 10 places.reverse := by
  have hplaces : places = digits.map fun d => (digitValue? d).getD 0 := by
    have hvalues := congrArg (List.map (·.getD 0)) h
    rw [List.map_map, List.map_map] at hvalues
    exact (List.map_id places).symm.trans hvalues.symm
  rw [hplaces, Nat.ofDigits_eq_foldr, List.foldr_reverse, List.foldl_map, numeral]
  refine congrFun (congrFun (congrArg _ (funext fun n => funext fun d => ?_)) 0) digits
  rw [Nat.add_comm]
  rfl

/-- A row of digits stands for the number that it is read as, and for no other one. -/
theorem stands_iff (hd : ∀ c ∈ digits, isDigit c = true) {n : Nat} : Stands digits n ↔ n = numeral digits := by
  constructor
  · rintro ⟨places, h, rfl⟩
    exact (numeral_eq_ofDigits h).symm
  · rintro rfl
    have h : digits.map digitValue? = (digits.map fun d => (digitValue? d).getD 0).map some := by
      rw [List.map_map]
      refine List.map_congr_left fun d hmem => ?_
      obtain ⟨value, hvalue⟩ := Option.isSome_iff_exists.1 (hd d hmem)
      rw [hvalue]
      simp [hvalue]
    exact ⟨_, h, numeral_eq_ofDigits h⟩

end Text

end Phrasebook
