import Phrasebook.Book.Basic
import Phrasebook.Proofs.Calendar
import Phrasebook.Contract
import Phrasebook.Proofs.Tree.Rows
import Mathlib.Data.Option.Basic

/-!
# Values that are equal and of one kind

A book takes two calls for the same if their values are equal and of equal kinds.

* `Value.Alike`: such values are one value, or doubles that are the same number, or moments at the same instant.
* Neither contracts nor plural rules tell alike values apart (`Alike.category_eq`, `Table.Alike.missing_eq`).
* `Alike.spelled_eq_iff`: alike values have the same text exactly if they state the same offset from universal time, but
  in any case texts of the same length. `Alike.isWritable_eq`: both can be written, or neither can.
* `Call.alike_of_same`: the values of calls that are the same are alike.
-/

namespace Phrasebook

/-! ## Doubles that are the same number -/

namespace Binary64

/-- Doubles that are the same number are one double, or they are zeros. -/
theorem eq_or_zero_of_same {x y : Binary64} (h : x.same y = true) :
    x = y ∨ ∃ negative negative' exponent hc hc', x = .finite negative 0 exponent hc ∧
      y = .finite negative' 0 exponent hc' := by
  unfold same at h
  split at h
  · next s m e hc s' m' e' hc' =>
    simp only [Bool.and_eq_true, Bool.or_eq_true, decide_eq_true_eq] at h
    obtain ⟨⟨rfl, rfl⟩, rfl | rfl⟩ := h
    · exact Or.inl rfl
    · exact Or.inr ⟨s, s', e, hc, hc', rfl, rfl⟩
  · next s s' =>
    rw [decide_eq_true_eq] at h
    exact Or.inl (by rw [h])
  · cases h

@[simp] theorem whole?_zero (exponent : Int) : whole? 0 exponent = some 0 := by
  unfold whole?
  split <;> simp

theorem toInt?_of_same {x y : Binary64} (h : x.same y = true) : x.toInt? = y.toInt? := by
  rcases eq_or_zero_of_same h with rfl | ⟨negative, negative', exponent, hc, hc', rfl, rfl⟩
  · rfl
  · cases negative <;> cases negative' <;> simp [toInt?]

end Binary64

/-! ## Alike values -/

namespace Value

/-- Two values that are equal and of one kind. -/
inductive Alike : Value → Value → Prop
  | refl (v : Value) : Alike v v
  | float {x y : Binary64} : x.same y = true → Alike (.float x) (.float y)
  | moment {a b : Calendar.Moment} : a.sameInstant b = true → Alike (.moment a) (.moment b)

/-- Whether a value has no parts. -/
def isScalar : Value → Bool
  | list _ | table _ => false
  | _ => true

/-- The distance from universal time that a value states. -/
def offset? : Value → Option Calendar.Offset
  | moment m => m.offset
  | _ => none

theorem agrees_eq_agreesAsScalar {v : Value} (hv : v.isScalar = true) (w : Value) :
    v.agrees w = v.agreesAsScalar w := by
  cases v with
  | list | table => cases hv
  | _ => simp [agrees, agreesBy]

/-- Values without parts that are equal and of equal kinds are alike. -/
theorem alike_of_agrees {v w : Value} (hv : v.isScalar = true) (hk : v.typeName = w.typeName)
    (ha : v.agrees w = true) : v.Alike w := by
  rw [agrees_eq_agreesAsScalar hv] at ha
  cases v <;> cases w <;> simp [typeName] at hk
  case float.float x y => exact .float ha
  case moment.moment a b => exact .moment ha
  case null.null => exact .refl _
  case list.list | table.table => cases hv
  case bool.bool a b | int.int a b | text.text a b | date.date a b | clock.clock a b | bytes.bytes a b =>
    obtain rfl : a = b := by simpa [agreesAsScalar] using ha
    exact .refl _

namespace Alike

variable {v w : Value}

theorem isNumber_eq (h : v.Alike w) : v.isNumber = w.isNumber := by cases h <;> rfl

/-- Alike values agree with the same whole numbers. -/
theorem agrees_int_eq (h : v.Alike w) (n : Int) : v.agrees (.int n) = w.agrees (.int n) := by
  cases h with
  | refl => rfl
  | float h => simp only [agrees, agreesBy, agreesAsScalar, Binary64.toInt?_of_same h]
  | moment h => simp only [agrees, agreesBy, agreesAsScalar]

/-- Alike values have the same magnitude, or lack it for the same reason. -/
theorem magnitude_eq (h : v.Alike w) : Plural.Magnitude.ofCount v = Plural.Magnitude.ofCount w := by
  cases h with
  | refl => rfl
  | float h => rcases Binary64.eq_or_zero_of_same h with rfl | ⟨_, _, _, _, _, rfl, rfl⟩ <;> rfl
  | moment h => rfl

/-- Where nothing is known of the language, alike values have the same category. -/
theorem categoryOfOne_eq (h : v.Alike w) : Plural.categoryOfOne v = Plural.categoryOfOne w := by
  have hany : [Value.int 1, .int (-1)].any v.agrees = [Value.int 1, .int (-1)].any w.agrees := by
    simp only [List.any_cons, List.any_nil, h.agrees_int_eq]
  cases h with
  | refl => rfl
  | float h =>
    rcases Binary64.eq_or_zero_of_same h with rfl | ⟨_, _, _, _, _, rfl, rfl⟩
    · rfl
    · simp only [Plural.categoryOfOne, hany]
  | moment h => simp only [Plural.categoryOfOne, hany, typeName]

/-- Alike values have the same plural category in every locale. -/
theorem category_eq (h : v.Alike w) (repository : Plural.Repository) (locale : String) :
    repository.category v locale = repository.category w locale := by
  unfold Plural.Repository.category
  rw [h.magnitude_eq, h.categoryOfOne_eq]

/-- Alike values can be written, or neither can. -/
theorem isWritable_eq (h : v.Alike w) : v.isWritable = w.isWritable := by
  cases h with
  | refl => rfl
  | float h => simp only [isWritable]
  | moment h => simp only [isWritable]

/-- Alike values have texts of the same length. -/
theorem length_spelled_eq (h : v.Alike w) : v.spelled.length = w.spelled.length := by
  cases h with
  | refl => rfl
  | float h =>
    rcases Binary64.eq_or_zero_of_same h with rfl | ⟨negative, negative', _, hc, hc', rfl, rfl⟩
    · rfl
    · cases negative <;> cases negative' <;> simp [spelled, Binary64.toInt?]
  | moment h => exact Calendar.Moment.length_toText " " h

/-- **Alike values have the same text exactly if they state the same offset.** -/
theorem spelled_eq_iff (h : v.Alike w) : v.spelled = w.spelled ↔ v.offset? = w.offset? := by
  cases h with
  | refl => exact iff_of_true rfl rfl
  | float h =>
    refine iff_of_true ?_ rfl
    rcases Binary64.eq_or_zero_of_same h with rfl | ⟨negative, negative', _, hc, hc', rfl, rfl⟩
    · rfl
    · cases negative <;> cases negative' <;> simp [spelled, Binary64.toInt?]
  | moment h => exact Calendar.Moment.toText_eq_iff " " h

theorem symm (h : v.Alike w) : w.Alike v := by
  cases h with
  | refl => exact .refl _
  | float h =>
    rcases Binary64.eq_or_zero_of_same h with rfl | ⟨_, _, _, _, _, rfl, rfl⟩
    · exact .refl _
    · exact .float (by simp [Binary64.same])
  | moment h =>
    obtain ⟨hsome, hinstant⟩ := Calendar.Moment.sameInstant_iff.1 h
    exact .moment (Calendar.Moment.sameInstant_iff.2 ⟨hsome.symm, hinstant.symm⟩)

end Alike

end Value

/-! ## Tables of alike values -/

namespace Table

/-- Two tables have alike values for the same names. -/
def Alike (values values' : Table) : Prop :=
  ∀ name, Option.Rel Value.Alike (values.get? (.text name)) (values'.get? (.text name))

/-- The distance from universal time that the value for a name states. -/
def offsetAt (values : Table) (name : String) : Option Calendar.Offset :=
  (values.get? (.text name)).bind Value.offset?

variable {values values' : Table}

/-- Both tables lack a name, or both have a value for it. -/
theorem Alike.none_or_some (h : values.Alike values') (name : String) :
    (values.get? (.text name) = none ∧ values'.get? (.text name) = none) ∨
      ∃ v w, values.get? (.text name) = some v ∧ values'.get? (.text name) = some w ∧ v.Alike w := by
  have h := h name
  revert h
  generalize values.get? (.text name) = found
  generalize values'.get? (.text name) = found'
  rintro (⟨hv⟩ | _)
  · exact Or.inr ⟨_, _, rfl, rfl, hv⟩
  · exact Or.inl ⟨rfl, rfl⟩

theorem Alike.symm (h : values.Alike values') : values'.Alike values := by
  intro name
  rcases h.none_or_some name with ⟨hv, hw⟩ | ⟨v, w, hv, hw, ha⟩
  · rw [hv, hw]
    exact .none
  · rw [hv, hw]
    exact .some ha.symm

theorem Alike.contains_eq (h : values.Alike values') (name : String) :
    values.contains (.text name) = values'.contains (.text name) := by
  unfold contains
  rcases h.none_or_some name with ⟨hv, hw⟩ | ⟨v, w, hv, hw, -⟩ <;> rw [hv, hw]
  rfl

/-- A contract misses the same of tables with alike values. -/
theorem Alike.missing_eq (h : values.Alike values') (contract : Contract) :
    contract.missing values = contract.missing values' := by
  unfold Contract.missing
  simp only [h.contains_eq]
  rcases h.none_or_some countName with ⟨hv, hw⟩ | ⟨v, w, hv, hw, ha⟩
  · rw [hv, hw]
  · simp only [hv, hw, ha.isNumber_eq]

/-- The count of one table is alike that of the other, or it is missing in both. -/
theorem Alike.getD (h : values.Alike values') (name : String) :
    ((values.get? (.text name)).getD .null).Alike ((values'.get? (.text name)).getD .null) := by
  rcases h.none_or_some name with ⟨hv, hw⟩ | ⟨v, w, hv, hw, ha⟩
  · rw [hv, hw]
    exact .refl _
  · rw [hv, hw]
    exact ha

/-- Items that are the same one by one, with values that have no parts, make up tables of alike values. -/
theorem alike_of_sameValues : ∀ {values values' : Table}, Call.sameValues values values' = true →
    (∀ item ∈ values, item.2.isScalar = true) → values.Alike values'
  | [], [], _, _ => fun _ => .none
  | (k, v) :: values, (k', v') :: values', h, hv => by
    intro name
    simp only [Call.sameValues, Bool.and_eq_true, decide_eq_true_eq] at h
    obtain ⟨⟨⟨hkey, hkind⟩, hvalue⟩, hrest⟩ := h
    obtain ⟨hhead, hvalues⟩ := List.forall_mem_cons.1 hv
    have ih := alike_of_sameValues hrest hvalues name
    -- a text agrees with itself alone, so it finds either of two agreeing keys or neither
    have hfinds : (Value.text name).agrees k = (Value.text name).agrees k' := by
      rw [Bool.eq_iff_iff, Value.text_agrees_iff, Value.text_agrees_iff]
      constructor
      · rintro rfl
        exact Value.text_agrees_iff.1 hkey
      · rintro rfl
        exact Value.agrees_text_iff.1 hkey
    unfold get? at ih ⊢
    rw [List.find?_cons, List.find?_cons, hfinds]
    cases (Value.text name).agrees k' with
    | true => exact .some (Value.alike_of_agrees hhead hkind hvalue)
    | false => exact ih

end Table

namespace Call

/-- The values of a call that can be remembered have no parts. -/
theorem isScalar_of_hashable {call : Call} (h : call.unhashable? = none) :
    ∀ item ∈ call.values, item.2.isScalar = true := by
  rintro ⟨k, v⟩ hitem
  have hv := List.findSome?_eq_none_iff.1 h ⟨k, v⟩ hitem
  cases v <;> first | rfl | cases hv

/-- What it takes for two calls to be the same. -/
theorem same_iff {call call' : Call} : call.same call' = true ↔ call.key = call'.key ∧ call.locale = call'.locale ∧
    call.scope = call'.scope ∧ sameValues call.values call'.values = true := by
  simp [same, and_assoc]

/-- Calls that are the same can both be remembered, or neither can, and then for values of the same kind. -/
theorem unhashable?_eq_of_same {call call' : Call} (h : call.same call' = true) :
    call.unhashable? = call'.unhashable? := by
  have hvalues : ∀ values values' : Table, sameValues values values' = true →
      unhashable? { call with values } = unhashable? { call' with values := values' } := by
    intro values
    induction values with
    | nil => intro values' h; cases values' <;> first | rfl | cases h
    | cons item values ih =>
      intro values' h
      obtain ⟨k, v⟩ := item
      cases values' with
      | nil => cases h
      | cons item' values' =>
        obtain ⟨k', v'⟩ := item'
        simp only [sameValues, Bool.and_eq_true, decide_eq_true_eq] at h
        obtain ⟨⟨⟨-, hkind⟩, -⟩, hrest⟩ := h
        have ih := ih values' hrest
        unfold unhashable? at ih ⊢
        simp only [List.findSome?_cons]
        cases v <;> cases v' <;> first | exact ih | rfl | simp [Value.typeName] at hkind
  exact hvalues _ _ (same_iff.1 h).2.2.2

/-- **The values of calls that are the same are alike.** -/
theorem alike_of_same {call call' : Call} (h : call.same call' = true) (hu : call.unhashable? = none) :
    call.values.Alike call'.values :=
  Table.alike_of_sameValues (same_iff.1 h).2.2.2 (isScalar_of_hashable hu)

end Call

end Phrasebook
