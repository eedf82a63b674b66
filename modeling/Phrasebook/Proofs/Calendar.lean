import Phrasebook.Calendar
import Mathlib.Algebra.Group.Nat.Defs
import Mathlib.Data.Nat.Basic
import Mathlib.Logic.Function.Basic

/-!
# What tells moments apart

* `Date.ordinal_injective` and `Clock.micros_injective`: no two dates are the same day, and no two times of the day the
  same time.
* `Moment.eq_of_sameInstant`: equal moments that state the same offset are one moment.
* `Moment.toText_eq_iff`: equal moments have the same text exactly if they state the same offset, but in any case texts
  of the same length (`Moment.length_toText`).
-/

namespace Phrasebook

/-! ## Numbers of full width -/

namespace Text

/-- A number is read off its digits, however many zeros stand before them. -/
theorem padded_injective (width : Nat) : Function.Injective (padded width) := by
  have hread : ∀ n, Nat.ofDigitChars 10 (padded width n).toList 0 = n := by
    intro n
    simp only [padded, String.toList_append, String.toList_ofList, Nat.toString_eq_ofList_toDigits,
      Nat.ofDigitChars_append, Nat.ofDigitChars_replicate_zero, Nat.mul_zero, Nat.ofDigitChars_ten_toDigits]
  intro n m h
  rw [← hread n, h, hread]

/-- A number below a power of ten fits in as many digits. -/
theorem length_padded {width n : Nat} (hw : 0 < width) (hn : n < 10 ^ width) : (padded width n).length = width := by
  have hdigits : (toString n).length ≤ width := by
    rw [Nat.toString_eq_ofList_toDigits, String.length_ofList]
    exact (Nat.length_toDigits_le_iff (by decide) hw).2 hn
  rw [padded, String.length_append, String.length_ofList, List.length_replicate]
  omega

/-- Of two texts with ends of equal lengths both parts can be told. -/
theorem append_inj_of_length {s s' t t' : String} (h : s ++ t = s' ++ t') (hl : t.length = t'.length) :
    s = s' ∧ t = t' := by
  have hlists : s.toList ++ t.toList = s'.toList ++ t'.toList := by
    rw [← String.toList_append, h, String.toList_append]
  obtain ⟨hs, ht⟩ := List.append_inj' hlists (by rw [String.length_toList, String.length_toList, hl])
  exact ⟨String.toList_inj.1 hs, String.toList_inj.1 ht⟩

end Text

namespace Calendar

/-! ## Dates -/

/-- The number of days before a year. -/
def daysBeforeYear (year : Nat) : Nat := 365 * (year - 1) + (year - 1) / 4 - (year - 1) / 100 + (year - 1) / 400

/-- The number of days of a year before a month. -/
def daysBeforeMonth (year month : Nat) : Nat :=
  (List.range (month - 1)).foldl (fun n m => n + daysIn year (m + 1)) 0

/-- The number of days of a year. -/
def daysInYear (year : Nat) : Nat := if isLeap year then 366 else 365

theorem Date.ordinal_eq (d : Date) :
    d.ordinal = daysBeforeYear d.year + daysBeforeMonth d.year d.month + d.day := rfl

theorem isLeap_iff {year : Nat} : isLeap year = true ↔ 4 ∣ year ∧ (100 ∣ year → 400 ∣ year) := by
  simp only [isLeap, Bool.and_eq_true, Bool.or_eq_true, decide_eq_true_eq, Nat.dvd_iff_mod_eq_zero]
  exact and_congr_right fun _ => Decidable.imp_iff_not_or.symm

theorem daysBeforeYear_succ {year : Nat} (h : 1 ≤ year) :
    daysBeforeYear (year + 1) = daysBeforeYear year + daysInYear year := by
  obtain ⟨y, rfl⟩ := Nat.exists_eq_add_of_le' h
  have hle : y / 100 ≤ y / 4 := Nat.div_le_div_left (by decide) (by decide)
  have h400 : 400 ∣ y + 1 → 100 ∣ y + 1 := Nat.dvd_trans (by decide)
  have h100 : 100 ∣ y + 1 → 4 ∣ y + 1 := Nat.dvd_trans (by decide)
  simp only [daysBeforeYear, daysInYear, isLeap_iff, Nat.add_sub_cancel, Nat.succ_div]
  generalize y / 4 = fours at hle ⊢
  generalize y / 100 = hundreds at hle ⊢
  generalize y / 400 = fourHundreds
  by_cases d400 : 400 ∣ y + 1
  · simp only [d400, h400 d400, h100 (h400 d400), if_true, implies_true, and_self]
    omega
  · by_cases d100 : 100 ∣ y + 1
    · simp only [d400, d100, h100 d100, if_true, if_false, imp_false, not_true, and_false]
      omega
    · by_cases d4 : 4 ∣ y + 1
      · simp only [d400, d100, d4, if_true, if_false, imp_false, not_false_eq_true, and_self]
        omega
      · simp only [d400, d100, d4, if_false, false_and]
        omega

theorem daysBeforeMonth_succ (year : Nat) {month : Nat} (h : 1 ≤ month) :
    daysBeforeMonth year (month + 1) = daysBeforeMonth year month + daysIn year month := by
  obtain ⟨m, rfl⟩ := Nat.exists_eq_add_of_le' h
  simp [daysBeforeMonth, List.range_succ]

/-- The months of a year make up the year. -/
theorem daysBeforeMonth_thirteen (year : Nat) : daysBeforeMonth year 13 = daysInYear year := by
  unfold daysInYear
  cases h : isLeap year <;> simp [daysBeforeMonth, List.range_succ, daysIn, h]

/-- A year is over before a later one begins. -/
theorem daysBeforeYear_add_le {year later : Nat} (h : 1 ≤ year) (hlt : year < later) :
    daysBeforeYear year + daysInYear year ≤ daysBeforeYear later := by
  induction later, hlt using Nat.le_induction with
  | base => exact Nat.le_of_eq (daysBeforeYear_succ h).symm
  | succ later hle ih =>
    rw [daysBeforeYear_succ (by omega)]
    exact Nat.le_add_right_of_le ih

/-- A month is over before a later one begins. -/
theorem daysBeforeMonth_add_le (year : Nat) {month later : Nat} (h : 1 ≤ month) (hlt : month < later) :
    daysBeforeMonth year month + daysIn year month ≤ daysBeforeMonth year later := by
  induction later, hlt using Nat.le_induction with
  | base => exact Nat.le_of_eq (daysBeforeMonth_succ year h).symm
  | succ later hle ih =>
    rw [daysBeforeMonth_succ year (by omega)]
    exact Nat.le_add_right_of_le ih

/-- A date lies in its year. -/
theorem Date.dayOfYear_le (d : Date) : daysBeforeMonth d.year d.month + d.day ≤ daysInYear d.year := by
  have hday := d.day_mem.2
  have hmonth := daysBeforeMonth_add_le d.year d.month_mem.1 (Nat.lt_succ_of_le d.month_mem.2)
  rw [daysBeforeMonth_thirteen] at hmonth
  omega

theorem Date.ordinal_lt_of_year_lt {a b : Date} (h : a.year < b.year) : a.ordinal < b.ordinal := by
  have hyear := daysBeforeYear_add_le a.year_mem.1 h
  have hin := a.dayOfYear_le
  have hday := b.day_mem.1
  rw [a.ordinal_eq, b.ordinal_eq]
  omega

theorem Date.ordinal_lt_of_month_lt {a b : Date} (hy : a.year = b.year) (h : a.month < b.month) :
    a.ordinal < b.ordinal := by
  have hmonth := daysBeforeMonth_add_le a.year a.month_mem.1 h
  have hin := a.day_mem.2
  have hday := b.day_mem.1
  rw [a.ordinal_eq, b.ordinal_eq, ← hy]
  omega

/-- **No two dates are the same day.** -/
theorem Date.ordinal_injective : Function.Injective Date.ordinal := by
  intro a b h
  have hyear : a.year = b.year := by
    rcases Nat.lt_trichotomy a.year b.year with hlt | heq | hlt
    · exact absurd h (Nat.ne_of_lt (ordinal_lt_of_year_lt hlt))
    · exact heq
    · exact absurd h.symm (Nat.ne_of_lt (ordinal_lt_of_year_lt hlt))
  have hmonth : a.month = b.month := by
    rcases Nat.lt_trichotomy a.month b.month with hlt | heq | hlt
    · exact absurd h (Nat.ne_of_lt (ordinal_lt_of_month_lt hyear hlt))
    · exact heq
    · exact absurd h.symm (Nat.ne_of_lt (ordinal_lt_of_month_lt hyear.symm hlt))
  have hday : a.day = b.day := by
    rw [a.ordinal_eq, b.ordinal_eq, hyear, hmonth] at h
    exact Nat.add_left_cancel h
  cases a
  cases b
  simp_all

/-! ## Times of the day -/

theorem Clock.micros_lt (t : Clock) : t.micros < 86400000000 := by
  have := t.hour_lt
  have := t.minute_lt
  have := t.second_lt
  have := t.micro_lt
  unfold micros
  omega

theorem Clock.micros_injective : Function.Injective Clock.micros := by
  rintro ⟨h, m, s, u, hh, hm, hs, hu⟩ ⟨h', m', s', u', hh', hm', hs', hu'⟩ heq
  simp only [micros] at heq
  obtain rfl : u = u' := by omega
  obtain rfl : s = s' := by omega
  obtain rfl : m = m' := by omega
  obtain rfl : h = h' := by omega
  rfl

/-! ## Moments -/

section

variable {a b : Moment}

theorem Moment.sameInstant_iff :
    a.sameInstant b = true ↔ a.offset.isSome = b.offset.isSome ∧ a.instant = b.instant := by
  simp [sameInstant]

/-- Equal moments that state the same offset are one moment. -/
theorem Moment.eq_of_sameInstant (h : a.sameInstant b = true) (ho : a.offset = b.offset) : a = b := by
  obtain ⟨-, hinstant⟩ := sameInstant_iff.1 h
  have hlt := a.clock.micros_lt
  have hlt' := b.clock.micros_lt
  simp only [instant, ho] at hinstant
  have hdate : a.date = b.date := Date.ordinal_injective (by omega)
  have hclock : a.clock = b.clock := Clock.micros_injective (by rw [hdate] at hinstant; omega)
  cases a
  cases b
  simp_all

/-- The millionths of a second within the second are what an instant leaves when it is divided into seconds. -/
theorem Moment.instant_emod (m : Moment) : m.instant % 1000000 = m.clock.micro := by
  have := m.clock.micro_lt
  simp only [instant, Clock.micros]
  omega

theorem Date.length_toText (d : Date) : d.toText.length = 10 := by
  have hyear := d.year_mem.2
  have hmonth := d.month_mem.2
  have hday : d.day < 10 ^ 2 := by
    have := d.day_mem.2
    unfold daysIn at this
    split at this <;> split at this <;> omega
  simp only [toText, String.length_append, Text.length_padded (show 0 < 4 by decide) (show d.year < 10 ^ 4 by omega),
    Text.length_padded (show 0 < 2 by decide) (show d.month < 10 ^ 2 by omega),
    Text.length_padded (show 0 < 2 by decide) hday]
  rfl

theorem Clock.length_toText (t : Clock) : t.toText.length = if t.micro = 0 then 8 else 15 := by
  have hh := t.hour_lt
  have hm := t.minute_lt
  have hs := t.second_lt
  have hu := t.micro_lt
  simp only [toText, String.length_append, Text.length_padded (show 0 < 2 by decide) (show t.hour < 10 ^ 2 by omega),
    Text.length_padded (show 0 < 2 by decide) (show t.minute < 10 ^ 2 by omega),
    Text.length_padded (show 0 < 2 by decide) (show t.second < 10 ^ 2 by omega)]
  split
  · rfl
  · rw [String.length_append, Text.length_padded (show 0 < 6 by decide) (show t.micro < 10 ^ 6 by omega)]
    rfl

theorem Offset.length_toText (o : Offset) : o.toText.length = 6 := by
  have hlt := o.minutes_lt
  simp only [toText, String.length_append,
    Text.length_padded (show 0 < 2 by decide) (show o.minutes.natAbs / 60 < 10 ^ 2 by omega),
    Text.length_padded (show 0 < 2 by decide) (show o.minutes.natAbs % 60 < 10 ^ 2 by omega)]
  split <;> rfl

/-- No two offsets have the same text. -/
theorem Offset.toText_injective : Function.Injective Offset.toText := by
  intro o o' h
  have hminutes : ∀ o : Offset, (Text.padded 2 (o.minutes.natAbs % 60)).length = 2 := fun o =>
    Text.length_padded (by decide) (by omega)
  have hhours : ∀ o : Offset, (Text.padded 2 (o.minutes.natAbs / 60)).length = 2 := fun o =>
    Text.length_padded (by decide) (by have := o.minutes_lt; omega)
  obtain ⟨h, hm⟩ := Text.append_inj_of_length h (by rw [hminutes, hminutes])
  obtain ⟨h, -⟩ := Text.append_inj_of_length h rfl
  obtain ⟨hsign, hh⟩ := Text.append_inj_of_length h (by rw [hhours, hhours])
  have hm := Text.padded_injective 2 hm
  have hh := Text.padded_injective 2 hh
  have habs : o.minutes.natAbs = o'.minutes.natAbs := by omega
  have hneg : o.minutes < 0 ↔ o'.minutes < 0 := by
    by_cases hn : o.minutes < 0 <;> by_cases hn' : o'.minutes < 0 <;> simp [hn, hn'] at hsign ⊢
  have heq : o.minutes = o'.minutes := by omega
  cases o
  cases o'
  simp_all

/-- Equal moments have texts of the same length. -/
theorem Moment.length_toText (between : String) (h : a.sameInstant b = true) :
    (a.toText between).length = (b.toText between).length := by
  obtain ⟨hsome, hinstant⟩ := sameInstant_iff.1 h
  have hmicro : a.clock.micro = b.clock.micro := by
    have ha := a.instant_emod
    rw [hinstant, b.instant_emod] at ha
    omega
  have hoffset : ((a.offset.map Offset.toText).getD "").length = ((b.offset.map Offset.toText).getD "").length := by
    cases hao : a.offset <;> cases hbo : b.offset <;> simp_all [Offset.length_toText]
  simp only [toText, String.length_append, Date.length_toText, Clock.length_toText, hmicro, hoffset]

/-- **Equal moments have the same text exactly if they state the same offset.** -/
theorem Moment.toText_eq_iff (between : String) (h : a.sameInstant b = true) :
    a.toText between = b.toText between ↔ a.offset = b.offset := by
  constructor
  · intro htext
    obtain ⟨hsome, -⟩ := sameInstant_iff.1 h
    cases hao : a.offset with
    | none =>
      rw [hao] at hsome
      cases hbo : b.offset with
      | none => rfl
      | some o' => rw [hbo] at hsome; cases hsome
    | some o =>
      rw [hao] at hsome
      cases hbo : b.offset with
      | none => rw [hbo] at hsome; cases hsome
      | some o' =>
        simp only [toText, hao, hbo, Option.map_some, Option.getD_some] at htext
        obtain ⟨-, ho⟩ := Text.append_inj_of_length htext (by rw [o.length_toText, o'.length_toText])
        rw [Offset.toText_injective ho]
  · intro ho
    rw [eq_of_sameInstant h ho]

end

end Calendar

end Phrasebook
