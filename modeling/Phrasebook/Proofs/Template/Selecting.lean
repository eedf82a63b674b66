import Phrasebook.Proofs.Template.Choosing
import Phrasebook.Proofs.Text.Cutting

/-!
# When a directive cannot be selected from

A text is read as a directive however many digits its numbers have, and only when a clause is selected it turns out
whether they are read as numbers.

* `Directive.select_of_ofText?`: selecting fails over a count exactly if the directive stumbles over it, and else gives
  what the count chooses. No count fails exactly if no number has too many digits, as in every text that is not longer
  than a number may be.
-/

namespace Phrasebook.Template

variable {d : Directive} {count : Value} {c : Clause} {chosen : Option Clause}

/-! ## Stumbling -/

theorem IsFirst.unique {p : Clause → Prop} {clauses : List Clause} {c' : Clause} (h : IsFirst p clauses c)
    (h' : IsFirst p clauses c') : c = c' := by
  classical
  exact Option.some.inj ((isFirst_iff.1 h).symm.trans (isFirst_iff.1 h'))

/-- Where a directive stumbles, nothing is selected. -/
theorem Directive.StumblesAt.select_eq (h : d.StumblesAt count c) (hc : count.isNumber = true)
    (hs : ∀ c ∈ d.clauses, c.selector.WellFormed) :
    d.select count = .error (.tooManyDigits c.selector.digitCount) := by
  classical
  have hfirst : firstExact count d.clauses = .error (.tooManyDigits c.selector.digitCount) := by
    rw [firstExact_eq_find?, find?_settles hc hs, isFirst_iff.1 h.1]
    exact if_pos (Nat.not_le.1 (mt Selector.inLimit_iff.2 h.2))
  rw [Directive.select, hfirst]
  rfl

/-- Selecting fails exactly where the directive stumbles. -/
theorem Directive.select_eq_error_iff (hc : count.isNumber = true) (hs : ∀ c ∈ d.clauses, c.selector.WellFormed)
    {fault : Fault} : d.select count = .error fault ↔
      ∃ c, d.StumblesAt count c ∧ fault = .tooManyDigits c.selector.digitCount := by
  constructor
  · intro herror
    by_cases hstumbles : ∃ c, d.StumblesAt count c
    · obtain ⟨c, h⟩ := hstumbles
      exact ⟨c, h, Except.error.inj (herror.symm.trans (h.select_eq hc hs))⟩
    · obtain ⟨chosen, hchosen, -⟩ := d.exists_unique_chooses count
      cases herror.symm.trans ((Directive.select_eq_ok_iff hc hs (not_exists.1 hstumbles)).2 hchosen)
  · rintro ⟨c, h, rfl⟩
    exact h.select_eq hc hs

/-! ## The numbers in a directive -/

theorem Selector.existsUnique_names {s : Selector} (hs : s.WellFormed) (h : s ≠ .other) : ∃! n, s.Names n := by
  cases s with
  | other => exact absurd rfl h
  | exact negative digits => exact ⟨_, (Selector.names_iff hs).2 rfl, fun n => (Selector.names_iff hs).1⟩

theorem Selector.Names.eq {s : Selector} {n k : Int} (hs : s.WellFormed) (hn : s.Names n) (hk : s.Names k) : n = k := by
  cases s with
  | other => exact hn.elim
  | exact negative digits => rw [(Selector.names_iff hs).1 hn, (Selector.names_iff hs).1 hk]

theorem Clause.isFor_int_iff {n : Int} : c.IsFor (.int n) ↔ c.selector.Names n := by
  simp [IsFor, Value.rational?]

/-- No clause is for some whole number. -/
theorem exists_int_not_isFor {clauses : List Clause} (hs : ∀ c ∈ clauses, c.selector.WellFormed) :
    ∃ n : Int, ∀ c ∈ clauses, ¬c.IsFor (.int n) := by
  have hfinite : (⋃ c ∈ {c | c ∈ clauses}, {n : Int | c.selector.Names n}).Finite :=
    (List.finite_toSet clauses).biUnion fun c hmem =>
      Set.Subsingleton.finite fun n hn k hk => Selector.Names.eq (hs c hmem) hn hk
  obtain ⟨n, hn⟩ := hfinite.exists_notMem
  refine ⟨n, fun c hmem hfor => hn ?_⟩
  exact Set.mem_biUnion hmem (Clause.isFor_int_iff.1 hfor)

/-- Where a number has too many digits, the directive stumbles over a count that it has no clause for. -/
theorem Directive.exists_stumblesAt (hlong : ∃ c ∈ d.clauses, ¬c.selector.InLimit)
    (hfor : ∀ c ∈ d.clauses, ¬c.IsFor count) : ∃ c, d.StumblesAt count c := by
  classical
  cases hends : d.clauses.find? (·.EndsSearch count) with
  | none =>
    obtain ⟨c, hmem, hlimit⟩ := hlong
    exact absurd (Or.inr hlimit) (find?_eq_none_iff.1 hends c hmem)
  | some c =>
    have hfirst := isFirst_iff.2 hends
    exact ⟨c, hfirst, hfirst.1.resolve_left (hfor c hfirst.mem)⟩

theorem Clause.digitCount_le_length_render (c : Clause) : c.selector.digitCount ≤ c.render.length := by
  have hselector : c.selector.digitCount ≤ c.selector.render.length := by
    cases c.selector with
    | other => exact Nat.zero_le _
    | exact negative digits =>
      rw [Selector.render, List.length_append]
      exact Nat.le_add_left _ _
  rw [Clause.render]
  simp only [List.length_append]
  omega

/-- In a text that is not longer than a number may be all numbers can be read. -/
theorem Directive.inLimit_of_length_render_le (hlength : d.render.length ≤ Text.digitLimit) (hmem : c ∈ d.clauses) :
    c.selector.InLimit := by
  have hclause : c.render <:+: Text.join ' ' (d.clauses.map Clause.render) :=
    Text.infix_join (List.mem_map_of_mem hmem)
  have hclauses : Text.join ' ' (d.clauses.map Clause.render) <:+: d.render :=
    ⟨'{' :: d.parameter ++ Directive.mark, ['}'], rfl⟩
  have hrender := (hclause.trans hclauses).length_le
  exact Selector.inLimit_iff.2 (c.digitCount_le_length_render.trans (hrender.trans hlength))

/-! ## What is read from a text -/

/-- **What a text is read as can be selected from, unless a number has too many digits.** Each selector with digits
names one number. Selecting for a count fails exactly if the search for the number of the count comes to a clause with
too many digits before it comes to one for the count; else it gives what the count chooses. So it never fails if all
numbers can be read, as in each text that is not longer than a number may be, and if one cannot it fails for some whole
number. -/
theorem Directive.select_of_ofText? {text : List Char} (h : Directive.ofText? text = some d) :
    (∀ c ∈ d.clauses, c.selector ≠ .other → ∃! n, c.selector.Names n) ∧
    (∀ count : Value, count.isNumber = true →
      (∀ fault, d.select count = .error fault ↔
        ∃ c, d.StumblesAt count c ∧ fault = .tooManyDigits c.selector.digitCount) ∧
      ∀ chosen, d.select count = .ok chosen ↔ d.Chooses count chosen ∧ ∀ c, ¬d.StumblesAt count c) ∧
    ((∀ c ∈ d.clauses, c.selector.InLimit) →
      ∀ count : Value, count.isNumber = true → ∃ chosen, d.select count = .ok chosen) ∧
    ((∃ c ∈ d.clauses, ¬c.selector.InLimit) → ∃ (n : Int) (fault : Fault), d.select (.int n) = .error fault) ∧
    (text.length ≤ Text.digitLimit → ∀ c ∈ d.clauses, c.selector.InLimit) := by
  obtain ⟨hd, rfl⟩ := render_of_ofText? h
  have hs : ∀ c ∈ d.clauses, c.selector.WellFormed := fun c hmem => (hd.clauses c hmem).1
  refine ⟨fun c hmem hne => Selector.existsUnique_names (hs c hmem) hne, fun count hc => ⟨fun fault => ?_, ?_⟩, ?_, ?_,
    fun hlength c hmem => Directive.inLimit_of_length_render_le hlength hmem⟩
  · exact Directive.select_eq_error_iff hc hs
  · intro chosen
    by_cases hstumbles : ∃ c, d.StumblesAt count c
    · obtain ⟨c, hstumbles⟩ := hstumbles
      rw [hstumbles.select_eq hc hs]
      exact iff_of_false nofun fun h => h.2 c hstumbles
    · have hno := not_exists.1 hstumbles
      rw [Directive.select_eq_ok_iff hc hs hno]
      exact (and_iff_left hno).symm
  · intro hl count hc
    obtain ⟨chosen, hchosen, -⟩ := d.exists_unique_chooses count
    exact ⟨chosen, (Directive.select_eq_ok_iff hc hs (Directive.not_stumblesAt hl count)).2 hchosen⟩
  · intro hlong
    obtain ⟨n, hn⟩ := exists_int_not_isFor hs
    obtain ⟨c, hstumbles⟩ := Directive.exists_stumblesAt hlong hn
    exact ⟨n, _, hstumbles.select_eq rfl hs⟩

/-! ## A number that cannot be read -/

/-- A clause for three. -/
def threeClause : Clause := ⟨.exact false ['٣'], "three".toList⟩

theorem inLimit_threeClause : threeClause.selector.InLimit := by
  rw [Selector.inLimit_iff]
  decide

theorem isFor_threeClause_iff {n : Int} : threeClause.IsFor (.int n) ↔ n = 3 := by
  rw [Clause.isFor_int_iff]
  exact Selector.names_iff ⟨List.cons_ne_nil _ _, List.forall_mem_singleton.2 (by decide)⟩

variable {digits : List Char}

/-- A directive with a clause for three, one for the number that is written with the given digits, and one for all
others. -/
def threeOr (digits : List Char) : Directive :=
  ⟨['n'], [threeClause, ⟨.exact false digits, "none".toList⟩, ⟨.other, "some".toList⟩]⟩

/-- The text of `threeOr`. -/
def threeOrText (digits : List Char) : List Char :=
  '{' :: "n, plural, =٣ {three} =".toList ++ digits ++ " {none} other {some}".toList ++ ['}']

theorem render_threeOr (digits : List Char) : (threeOr digits).render = threeOrText digits := by
  -- both are the same characters in front of the digits and behind them
  show '{' :: "n, plural, =٣ {three} =".toList ++ (digits ++ [' ', '{'] ++ "none".toList ++ ['}'] ++
    " other {some}".toList) ++ ['}'] = _
  simp only [threeOrText, List.append_assoc]
  rfl

theorem wellFormed_threeOr (h : (Selector.exact false digits).WellFormed) : (threeOr digits).WellFormed := by
  have hzero : Directive.ofText? (threeOrText ['0']) = some (threeOr ['0']) := by decide +kernel
  obtain ⟨hd, -⟩ := render_of_ofText? hzero
  refine ⟨hd.parameter_ne_nil, hd.no_open, hd.no_close, hd.mark_first, hd.two_or_three, ?_⟩
  obtain ⟨hthree, hclauses⟩ := List.forall_mem_cons.1 hd.clauses
  obtain ⟨hnone, hother⟩ := List.forall_mem_cons.1 hclauses
  exact List.forall_mem_cons.2 ⟨hthree, List.forall_mem_cons.2 ⟨⟨h, hnone.2⟩, hother⟩⟩

theorem ofText?_threeOrText (h : (Selector.exact false digits).WellFormed) :
    Directive.ofText? (threeOrText digits) = some (threeOr digits) := by
  rw [← render_threeOr]
  exact ofText?_render (wellFormed_threeOr h)

/-- Over any count but three `threeOr` stumbles if its second number has too many digits. -/
theorem stumblesAt_threeOr {n : Int} (hlong : Text.digitLimit < digits.length) (hn : n ≠ 3) :
    (threeOr digits).StumblesAt (.int n) ⟨.exact false digits, "none".toList⟩ := by
  have hlimit : ¬(Selector.exact false digits).InLimit := Nat.not_le.2 hlong
  refine ⟨⟨Or.inr hlimit, [threeClause], _, rfl, List.forall_mem_singleton.2 ?_⟩, hlimit⟩
  rintro (hfor | hthree)
  · exact hn (isFor_threeClause_iff.1 hfor)
  · exact hthree inLimit_threeClause

theorem wellFormed_zeros {n : Nat} (h : 0 < n) : (Selector.exact false (List.replicate n '0')).WellFormed := by
  refine ⟨List.ne_nil_of_length_pos (by rwa [List.length_replicate]), fun c hmem => ?_⟩
  rw [List.eq_of_mem_replicate hmem]
  decide

/-- A count is found in front of a number that cannot be read, but not behind it. -/
theorem Directive.select_of_ofText?_three :
    let zeros := List.replicate 4301 '0'
    Directive.ofText? (threeOrText zeros) = some (threeOr zeros) ∧
      (threeOr zeros).select (.int 3) = .ok (some threeClause) ∧
      (threeOr zeros).select (.int 4) = .error (.tooManyDigits 4301) := by
  intro zeros
  have hlength : zeros.length = 4301 := List.length_replicate
  have h : Directive.ofText? (threeOrText zeros) = some (threeOr zeros) :=
    ofText?_threeOrText (wellFormed_zeros (by decide))
  have hfor : threeClause.IsFor (.int 3) := isFor_threeClause_iff.2 rfl
  have hno : ∀ c, ¬(threeOr zeros).StumblesAt (.int 3) c := by
    rintro c ⟨hfirst, hlimit⟩
    obtain rfl : threeClause = c := IsFirst.unique ⟨Or.inl hfor, [], _, rfl, List.forall_mem_nil _⟩ hfirst
    exact hlimit inLimit_threeClause
  have hstumbles : (threeOr zeros).StumblesAt (.int 4) ⟨.exact false zeros, "none".toList⟩ :=
    stumblesAt_threeOr (by rw [hlength]; decide) (by decide)
  obtain ⟨-, hselect, -⟩ := Directive.select_of_ofText? h
  refine ⟨h, ((hselect (.int 3) rfl).2 _).2 ⟨.exact ⟨hfor, [], _, rfl, List.forall_mem_nil _⟩, hno⟩, ?_⟩
  exact ((hselect (.int 4) rfl).1 _).2 ⟨_, hstumbles, congrArg _ hlength.symm⟩

/-- A text that is not too long is read as a directive, but the zero in it is written with more digits than are read. -/
theorem Directive.long_zero_is_not_read :
    let zeros := List.replicate 4301 '0'
    (threeOrText zeros).length ≤ 65536 ∧ Directive.ofText? (threeOrText zeros) = some (threeOr zeros) ∧
      (threeOr zeros).select (.int 1) = .error (.tooManyDigits 4301) := by
  intro zeros
  have hlength : zeros.length = 4301 := List.length_replicate
  have hw : (Selector.exact false zeros).WellFormed := wellFormed_zeros (by decide)
  have hstumbles : (threeOr zeros).StumblesAt (.int 1) ⟨.exact false zeros, "none".toList⟩ :=
    stumblesAt_threeOr (by rw [hlength]; decide) (by decide)
  refine ⟨?_, ofText?_threeOrText hw, ?_⟩
  · rw [threeOrText, List.length_append, List.length_append, List.length_append, hlength]
    decide
  · rw [hstumbles.select_eq rfl fun c hmem => ((wellFormed_threeOr hw).clauses c hmem).1]
    exact congrArg _ (congrArg _ hlength)

end Phrasebook.Template
