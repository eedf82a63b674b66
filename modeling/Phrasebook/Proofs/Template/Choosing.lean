import Mathlib.Data.List.Find
import Phrasebook.Proofs.Number.Exact
import Phrasebook.Proofs.Template.Division
import Phrasebook.Proofs.Template.Grammar

/-!
# What a plural directive is written as

A count chooses a clause of a directive (`Directive.Chooses`): the first one for exactly that number, wherever it
stands; without one the first one for all others, wherever that stands; without either no clause.

* `find?_settles`: the clauses are searched up to the first one that is for the count or has too many digits. The
  directive stumbles at that clause (`Directive.StumblesAt`) if it has too many digits.
* `select_eq_ok_iff`: what the count chooses is selected, unless the directive stumbles.
* `fill_eq_of_wellFormed`: a directive as it is written is filled as the content of the chosen clause, as plain text
  with placeholders, or there is a fault because its parameter has no number or a value cannot be written.
-/

namespace Phrasebook.Template

/-! ## The number of a clause -/

/-- A selector names a whole number, written with the digits of any script. -/
def Selector.Names : Selector → Int → Prop
  | .exact negative digits, n => ∃ k, Text.Stands digits k ∧ n = if negative then -(k : Int) else k
  | .other, _ => False

/-- A selector has no more digits than are read as a number. -/
def Selector.InLimit : Selector → Prop
  | .exact _ digits => digits.length ≤ Text.digitLimit
  | .other => True

theorem Selector.inLimit_iff {s : Selector} : s.InLimit ↔ s.digitCount ≤ Text.digitLimit := by
  cases s with
  | exact negative digits => exact Iff.rfl
  | other => exact iff_of_true trivial (Nat.zero_le _)

/-- A selector with digits names the number that they are read as, and no other one. -/
theorem Selector.names_iff {negative : Bool} {digits : List Char} (hs : (exact negative digits).WellFormed) {n : Int} :
    (exact negative digits).Names n ↔ n = if negative then -(Text.numeral digits : Int) else Text.numeral digits := by
  simp only [Names, Text.stands_iff hs.2, exists_eq_left]

/-- A clause is for the one number that its selector names. -/
def Clause.IsFor (c : Clause) (count : Value) : Prop := ∃ n, c.selector.Names n ∧ count.rational? = some (n : ℚ)

/-- The search for the number of a count ends at a clause: the clause is for the count, or has too many digits. -/
def Clause.EndsSearch (c : Clause) (count : Value) : Prop := c.IsFor count ∨ ¬c.selector.InLimit

variable {count : Value} {c : Clause}

theorem Clause.not_isFor_of_other (h : c.selector = .other) : ¬c.IsFor count := by
  rintro ⟨n, hn, -⟩
  rw [h] at hn
  exact hn

/-- A clause for one number is for a count exactly if the count agrees with what its digits are read as. -/
theorem Clause.isFor_iff_agrees {negative : Bool} {digits : List Char} (h : c.selector = .exact negative digits)
    (hw : c.selector.WellFormed) (hc : count.isNumber = true) :
    c.IsFor count ↔
      count.agrees (.int (if negative then -(Text.numeral digits : Int) else Text.numeral digits)) = true := by
  rw [h] at hw
  rw [Clause.IsFor, h, Value.agrees_int_iff hc]
  simp only [Selector.names_iff hw, exists_eq_left]

/-- The search ends at a clause for the count and at one with too many digits. -/
theorem Clause.settles_iff (hw : c.selector.WellFormed) (hc : count.isNumber = true) :
    c.settles count = true ↔ c.EndsSearch count := by
  rw [Clause.settles, Clause.EndsSearch, Selector.inLimit_iff, Nat.not_le]
  cases hsel : c.selector with
  | other => simp [Clause.not_isFor_of_other hsel, Selector.digitCount]
  | exact negative digits =>
    rw [Bool.or_eq_true, decide_eq_true_iff, ← Clause.isFor_iff_agrees hsel hw hc, or_comm, Selector.digitCount]

/-! ## The clause for a count -/

/-- A clause is the first one of some with a property. -/
def IsFirst (p : Clause → Prop) (clauses : List Clause) (c : Clause) : Prop :=
  p c ∧ ∃ before after, clauses = before ++ c :: after ∧ ∀ b ∈ before, ¬p b

/-- The clause that a count chooses: the first one for its number, else the first one for all others, else none. -/
inductive Directive.Chooses (d : Directive) (count : Value) : Option Clause → Prop
  | exact {c : Clause} : IsFirst (·.IsFor count) d.clauses c → d.Chooses count (some c)
  | other {c : Clause} : (∀ b ∈ d.clauses, ¬b.IsFor count) → IsFirst (·.selector = .other) d.clauses c →
      d.Chooses count (some c)
  | nothing : (∀ b ∈ d.clauses, ¬b.IsFor count) → (∀ b ∈ d.clauses, b.selector ≠ .other) → d.Chooses count none

/-- A directive stumbles at a clause over a count: the search for the number of the count ends there, because the clause
has too many digits. -/
def Directive.StumblesAt (d : Directive) (count : Value) (c : Clause) : Prop :=
  IsFirst (·.EndsSearch count) d.clauses c ∧ ¬c.selector.InLimit

variable {p q : Clause → Prop} {clauses : List Clause} {d : Directive}

theorem IsFirst.mono (h : IsFirst p clauses c) (hc : q c) (hqp : ∀ b, q b → p b) : IsFirst q clauses c := by
  obtain ⟨-, before, after, hclauses, hbefore⟩ := h
  exact ⟨hc, before, after, hclauses, fun b hmem hb => hbefore b hmem (hqp b hb)⟩

theorem IsFirst.mem (h : IsFirst p clauses c) : c ∈ clauses := by
  obtain ⟨-, before, after, rfl, -⟩ := h
  exact List.mem_append_cons_self

/-- A directive all of whose numbers can be read does not stumble. -/
theorem Directive.not_stumblesAt (hl : ∀ c ∈ d.clauses, c.selector.InLimit) (count : Value) (c : Clause) :
    ¬d.StumblesAt count c :=
  fun h => h.2 (hl c h.1.mem)

theorem isFirst_iff [DecidablePred p] : IsFirst p clauses c ↔ clauses.find? (p ·) = some c := by
  rw [List.find?_eq_some_iff_append]
  simp [IsFirst]

theorem find?_eq_none_iff [DecidablePred p] : clauses.find? (p ·) = none ↔ ∀ c ∈ clauses, ¬p c := by simp

section

open scoped Classical

/-- One clause is chosen, or none. -/
theorem Directive.chooses_iff {chosen : Option Clause} : d.Chooses count chosen ↔
    chosen = (d.clauses.find? (·.IsFor count)).or (d.clauses.find? (·.selector = .other)) := by
  constructor
  · intro h
    cases h with
    | exact h => rw [isFirst_iff.1 h, Option.some_or]
    | other hno h => rw [find?_eq_none_iff.2 hno, Option.none_or, isFirst_iff.1 h]
    | nothing hno h => rw [find?_eq_none_iff.2 hno, Option.none_or, find?_eq_none_iff.2 h]
  · rintro rfl
    cases hexact : d.clauses.find? (·.IsFor count) with
    | some c => exact .exact (isFirst_iff.2 hexact)
    | none =>
      rw [Option.none_or]
      cases hother : d.clauses.find? (·.selector = .other) with
      | some c => exact .other (find?_eq_none_iff.1 hexact) (isFirst_iff.2 hother)
      | none => exact .nothing (find?_eq_none_iff.1 hexact) (find?_eq_none_iff.1 hother)

/-- The clause that settles the search is the first one for the count or with too many digits. -/
theorem find?_settles (hc : count.isNumber = true) (hs : ∀ c ∈ clauses, c.selector.WellFormed) :
    clauses.find? (Clause.settles count) = clauses.find? (·.EndsSearch count) := by
  refine List.find?_congr fun c hmem => Bool.eq_iff_iff.2 ?_
  rw [Clause.settles_iff (hs c hmem) hc, decide_eq_true_iff]

/-- The first clause with the number of a count is found, unless the search ends at a number that cannot be read. -/
theorem firstExact_eq (hc : count.isNumber = true) (hs : ∀ c ∈ clauses, c.selector.WellFormed)
    (hl : ∀ c, IsFirst (·.EndsSearch count) clauses c → c.selector.InLimit) :
    firstExact count clauses = .ok (clauses.find? (·.IsFor count)) := by
  rw [firstExact_eq_find?, find?_settles hc hs]
  cases hends : clauses.find? (·.EndsSearch count) with
  | none =>
    have hno : ∀ c ∈ clauses, ¬c.IsFor count := fun c hmem => mt Or.inl (find?_eq_none_iff.1 hends c hmem)
    rw [find?_eq_none_iff.2 hno]
  | some c =>
    have hfirst := isFirst_iff.2 hends
    have hlimit := hl c hfirst
    have hfor : IsFirst (·.IsFor count) clauses c :=
      hfirst.mono (hfirst.1.resolve_right (not_not.2 hlimit)) fun _ => Or.inl
    rw [isFirst_iff.1 hfor]
    exact if_neg (Nat.not_lt.2 (Selector.inLimit_iff.1 hlimit))

/-- **What is selected is what the count chooses**, unless the directive stumbles before. -/
theorem Directive.select_eq_ok_iff (hc : count.isNumber = true) (hs : ∀ c ∈ d.clauses, c.selector.WellFormed)
    (hl : ∀ c, ¬d.StumblesAt count c) {chosen : Option Clause} :
    d.select count = .ok chosen ↔ d.Chooses count chosen := by
  have hfirst := firstExact_eq hc hs fun c h => not_not.1 fun hlimit => hl c ⟨h, hlimit⟩
  rw [Directive.chooses_iff, Directive.select, hfirst]
  cases d.clauses.find? (·.IsFor count) <;> exact ⟨fun h => (Except.ok.inj h).symm, fun h => h ▸ rfl⟩

end

/-- One thing is chosen for a count. -/
theorem Directive.exists_unique_chooses (d : Directive) (count : Value) : ∃! chosen, d.Chooses count chosen :=
  ⟨_, Directive.chooses_iff.2 rfl, fun _ h => Directive.chooses_iff.1 h⟩

/-! ## Filling a directive -/

section

variable {d : Directive} {values : Table}

theorem ofText_render (hd : d.WellFormed) : ofText (String.ofList d.render) = ofDirective d := by
  refine ofText_of_directive ?_
  rw [String.toList_ofList]
  exact ofText?_render hd

/-- With a number for its parameter, a directive is filled as what the number chooses. -/
theorem fill_render_of_number (hd : d.WellFormed) (hl : ∀ c ∈ d.clauses, c.selector.InLimit)
    (hg : values.get? (.text (String.ofList d.parameter)) = some count) (hn : count.isNumber = true)
    {chosen : Option Clause} (hc : d.Chooses count chosen) :
    fill values (.text (String.ofList d.render)) = chosen.elim (.ok "") fun c => fillText values c.content := by
  have hselect : d.select count = .ok chosen :=
    (Directive.select_eq_ok_iff hn (fun c hmem => (hd.clauses c hmem).1) (Directive.not_stumblesAt hl count)).2 hc
  simp only [fill, ofText_render hd, ofDirective, hg, Option.getD_some, hn, if_true, hselect]
  cases chosen <;> rfl

/-- Without a number for its parameter, a directive is not filled; the fault quotes what there is instead. -/
theorem fill_render_of_no_number (hd : d.WellFormed)
    (hn : ∀ count, values.get? (.text (String.ofList d.parameter)) = some count → count.isNumber = false) :
    let given := (values.get? (.text (String.ofList d.parameter))).getD .null
    fill values (.text (String.ofList d.render)) =
      .error (Fault.notANumber (String.ofList d.parameter) given).told := by
  intro given
  have hno : given.isNumber = false := by
    show ((values.get? (.text (String.ofList d.parameter))).getD .null).isNumber = false
    cases hg : values.get? (.text (String.ofList d.parameter)) with
    | none => rfl
    | some count => exact hn count hg
  simp only [fill, ofText_render hd, ofDirective]
  rw [if_neg (by rw [Bool.not_eq_true]; exact hno)]

end

/-- A directive is not filled for want of a number exactly if there is no number for its parameter and what there is
instead can be quoted. -/
theorem fill_render_eq_notANumber_iff {d : Directive} {values : Table} (hd : d.WellFormed)
    (hl : ∀ c ∈ d.clauses, c.selector.InLimit) {parameter : String} {given : Value} :
    fill values (.text (String.ofList d.render)) = .error (.notANumber parameter given) ↔
      (∀ count, values.get? (.text (String.ofList d.parameter)) = some count → count.isNumber = false) ∧
        ((values.get? (.text (String.ofList d.parameter))).getD .null).isWritable = true ∧
        parameter = String.ofList d.parameter ∧
        given = (values.get? (.text (String.ofList d.parameter))).getD .null := by
  constructor
  · intro herror
    have hno : ∀ count, values.get? (.text (String.ofList d.parameter)) = some count → count.isNumber = false := by
      intro count hg
      by_contra hn
      obtain ⟨chosen, hc, -⟩ := d.exists_unique_chooses count
      have hfill := (fill_render_of_number hd hl hg (Bool.of_not_eq_false hn) hc).symm.trans herror
      cases chosen with
      | none => cases hfill
      | some c => cases (fillText_eq_error_iff.1 hfill).2
    have hfault := Except.error.inj (herror.symm.trans (fill_render_of_no_number hd hno))
    unfold Fault.told at hfault
    split at hfault
    · next hw =>
      cases hfault
      exact ⟨hno, hw, rfl, rfl⟩
    · cases hfault
  · rintro ⟨hno, hw, rfl, rfl⟩
    exact (fill_render_of_no_number hd hno).trans (congrArg _ (Fault.told_eq_self hw))

/-- **A plural directive is written as the clause for its count.** Filling a well-formed directive as it is written
fails for want of a number exactly if there is no value for its parameter or that value is no number, as far as the
value can be quoted. Else it gives the content of the clause that the number chooses, cut into plain text and
placeholders like any text and with values in the place of these, or the empty text if no clause is chosen. It is not
filled if one of the values to quote or to fill in has a whole number with too many digits. -/
theorem fill_eq_of_wellFormed {d : Directive} (hd : d.WellFormed) (hl : ∀ c ∈ d.clauses, c.selector.InLimit)
    (values : Table) :
    let parameter := String.ofList d.parameter
    let given := values.get? (.text parameter)
    let filled := fill values (.text (String.ofList d.render))
    (∀ named quoted, filled = .error (.notANumber named quoted) ↔
      (∀ count, given = some count → count.isNumber = false) ∧ (given.getD .null).isWritable = true ∧
        named = parameter ∧ quoted = given.getD .null) ∧
    ((∀ count, given = some count → count.isNumber = false) → (given.getD .null).isWritable = false →
      filled = .error .unwritable) ∧
    ∀ count, given = some count → count.isNumber = true →
      (∃! chosen, d.Chooses count chosen) ∧
      (d.Chooses count none → filled = .ok "") ∧
      ∀ c, d.Chooses count (some c) → ∃ cuts : Cuts, cuts.Divides c.content ∧
        (∀ shown : List Char → List Char, (∀ slot ∈ cuts.slots, Cuts.slotValue values slot.2 = some (shown slot.2)) →
          filled = .ok (String.ofList (cuts.slots.flatMap (fun slot => slot.1 ++ shown slot.2) ++ cuts.tail))) ∧
        ((∃ slot ∈ cuts.slots, ∃ v, values.get? (.text (String.ofList slot.2)) = some v ∧ v.isWritable = false) →
          filled = .error .unwritable) := by
  intro parameter given filled
  refine ⟨fun named quoted => fill_render_eq_notANumber_iff hd hl, fun hno hw => ?_,
    fun count hg hn => ⟨d.exists_unique_chooses count, ?_, fun c hc => ?_⟩⟩
  · exact (fill_render_of_no_number hd hno).trans (congrArg _ (Fault.told_eq_unwritable hw))
  · exact fill_render_of_number hd hl hg hn
  · have hfilled : filled = fillText values c.content := fill_render_of_number hd hl hg hn hc
    refine ⟨Cuts.ofText c.content, Cuts.divides_ofText c.content, fun shown hshown => ?_, ?_⟩
    · rw [hfilled]
      exact fillText_eq_of_slotValue hshown
    · rintro ⟨slot, hslot, hlong⟩
      rw [hfilled, fillText_eq_error_iff]
      exact ⟨⟨slot, hslot, Cuts.slotValue_eq_none_iff.2 hlong⟩, rfl⟩

/-- The clause for all others comes first, the number is a zero with a sign in another script and the count a negative
zero; the content that is chosen looks like a directive for another parameter. A truth value is no number. -/
theorem fill_eq_of_wellFormed_zero :
    let text := "{n, plural, other {{n} of them} =-٠ {{m, plural, =7 {x} other {k}}}}"
    let zero : Clause := ⟨.exact true ['٠'], "{m, plural, =7 {x} other {k}}".toList⟩
    let d : Directive := ⟨['n'], [⟨.other, "{n} of them".toList⟩, zero]⟩
    let values : Table := [(.text "n", .float (.zero true)), (.text "m", .int 7), (.text "k", .int 8)]
    d.WellFormed ∧ String.ofList d.render = text ∧ d.Chooses (.float (.zero true)) (some zero) ∧
      fill values (.text text) = .ok "{m, plural, =7 {x} other 8}" ∧
      fill [(.text "n", .bool true)] (.text text) = .error (.notANumber "n" (.bool true)) := by
  intro text zero d values
  obtain ⟨hd, htext⟩ := render_of_ofText? (show Directive.ofText? text.toList = some d by decide +kernel)
  have hrender : String.ofList d.render = text := by rw [← htext, String.ofList_toList]
  have hl : ∀ c ∈ d.clauses, c.selector.InLimit := by
    refine List.forall_mem_cons.2 ⟨trivial, List.forall_mem_cons.2 ⟨?_, List.forall_mem_nil _⟩⟩
    show 1 ≤ Text.digitLimit
    decide
  have hchooses : d.Chooses (.float (.zero true)) (some zero) := by
    refine .exact ⟨⟨0, ⟨0, ⟨[0], by decide +kernel, rfl⟩, rfl⟩, ?_⟩, [_], [], rfl, ?_⟩
    · exact Binary64.toInt?_eq_some_iff.1 (show (Binary64.zero true).toInt? = some 0 by decide)
    · exact List.forall_mem_cons.2 ⟨Clause.not_isFor_of_other rfl, List.forall_mem_nil _⟩
  have hmain := fill_eq_of_wellFormed hd hl
  simp only [hrender] at hmain
  obtain ⟨-, -, hfilled⟩ := hmain values
  obtain ⟨-, -, hcontent⟩ := hfilled (.float (.zero true)) (by rfl) rfl
  obtain ⟨cuts, hcuts, hfill, -⟩ := hcontent zero hchooses
  obtain rfl := Cuts.divides_iff.1 hcuts
  let shown : List Char → List Char := fun name => if name = ['k'] then ['8'] else Cuts.slotText name
  have hshown : ∀ slot ∈ (Cuts.ofText zero.content).slots, Cuts.slotValue values slot.2 = some (shown slot.2) := by
    decide +kernel
  refine ⟨hd, hrender, hchooses, (hfill shown hshown).trans (congrArg _ (by decide +kernel)), ?_⟩
  refine ((hmain [(.text "n", .bool true)]).1 _ _).2 ⟨?_, rfl, rfl, rfl⟩
  intro count hc
  obtain rfl : (.bool true : Value) = count := Option.some.inj hc
  rfl

theorem Clause.not_isFor_of_ne_zero {content : List Char} {n : Int} (hn : n ≠ 0) :
    ¬(⟨.exact false ['0'], content⟩ : Clause).IsFor (.int n) := by
  have hw : (Selector.exact false ['0']).WellFormed :=
    ⟨List.cons_ne_nil _ _, List.forall_mem_cons.2 ⟨by decide +kernel, List.forall_mem_nil _⟩⟩
  rintro ⟨k, hk, hcount⟩
  obtain rfl : k = 0 := (Selector.names_iff hw).1 hk
  exact hn (Int.cast_injective (Option.some.inj hcount))

/-- **A directive need not be filled although its parameter has a number**: the number may have too many digits to be
written. -/
theorem long_count_is_not_filled :
    let count : Value := .int Value.wholeLimit
    let other : Clause := ⟨.other, ['{', 'n', '}']⟩
    let d : Directive := ⟨['n'], [⟨.exact false ['0'], ['a']⟩, other]⟩
    let values : Table := [(.text "n", count)]
    String.ofList d.render = "{n, plural, =0 {a} other {{n}}}" ∧ d.WellFormed ∧ (∀ c ∈ d.clauses, c.selector.InLimit) ∧
      count.isNumber = true ∧ d.Chooses count (some other) ∧
      fill values (.text "{n, plural, =0 {a} other {{n}}}") = .error .unwritable := by
  intro count other d values
  obtain ⟨hd, htext⟩ := render_of_ofText? (d := d)
    (show Directive.ofText? "{n, plural, =0 {a} other {{n}}}".toList = some d by decide +kernel)
  have hrender : String.ofList d.render = "{n, plural, =0 {a} other {{n}}}" := by rw [← htext, String.ofList_toList]
  have hl : ∀ c ∈ d.clauses, c.selector.InLimit := by
    refine List.forall_mem_cons.2 ⟨?_, List.forall_mem_cons.2 ⟨trivial, List.forall_mem_nil _⟩⟩
    show 1 ≤ Text.digitLimit
    decide
  have hzero : ¬(⟨.exact false ['0'], ['a']⟩ : Clause).IsFor count :=
    Clause.not_isFor_of_ne_zero (Int.natCast_ne_zero.2 Value.wholeLimit_pos.ne')
  have hchooses : d.Chooses count (some other) := by
    refine .other (List.forall_mem_cons.2 ⟨hzero, List.forall_mem_cons.2 ⟨Clause.not_isFor_of_other rfl,
      List.forall_mem_nil _⟩⟩) ⟨rfl, [_], [], rfl, List.forall_mem_cons.2 ⟨?_, List.forall_mem_nil _⟩⟩
    exact fun h => by cases h
  refine ⟨hrender, hd, hl, rfl, hchooses, ?_⟩
  have hfill : fill values (.text (String.ofList d.render)) = _ := fill_render_of_number hd hl rfl rfl hchooses
  rw [hrender] at hfill
  rw [hfill]
  exact fillText_eq_unwritable Value.isWritable_wholeLimit

end Phrasebook.Template
