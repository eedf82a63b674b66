import Phrasebook.Proofs.Template.Braces

/-!
# The grammar of plural directives

A directive is well formed (`Directive.WellFormed`) when its parameter can be told from the mark behind it, it has two
or three clauses, its selectors are written with digits, and its contents are balanced.

* Reading accepts exactly what writing makes of a well-formed directive (`ofText?_eq_some_iff_render`), so that every
  text is written by one directive at most. The readers of the parts satisfy the same law with the rest of the text
  behind the part: `cutSelector?_append` and `render_of_cutSelector?`, `cutClause?_eq_some_iff`,
  `clausesOf?_eq_some_iff`.
-/

namespace Phrasebook.Template

/-! ## The mark -/

/-- The first occurrence of a mark in a text is at a position. -/
def FirstAt (mark cs : List Char) (n : Nat) : Prop := mark <+: cs.drop n ∧ ∀ i < n, ¬mark <+: cs.drop i

/-- A mark that a text does not begin with occurs first where it does so in the rest. -/
theorem firstAt_cons_iff {mark cs : List Char} {c : Char} {n : Nat} :
    FirstAt mark (c :: cs) (n + 1) ↔ ¬mark <+: c :: cs ∧ FirstAt mark cs n := by
  constructor
  · rintro ⟨h, hno⟩
    exact ⟨hno 0 (by omega), h, fun i hi => hno (i + 1) (by omega)⟩
  · rintro ⟨h0, h, hno⟩
    refine ⟨h, fun i hi => ?_⟩
    cases i with
    | zero => exact h0
    | succ i => exact hno i (by omega)

/-- Whether a mark begins a text does not depend on what follows once the mark fits in. -/
theorem prefix_append_iff {mark cs : List Char} (after : List Char) (h : mark.length ≤ cs.length) :
    mark <+: cs ++ after ↔ mark <+: cs := by
  constructor
  · intro hp
    exact List.prefix_of_prefix_length_le hp (List.prefix_append cs after) h
  · intro hp
    exact hp.trans (List.prefix_append cs after)

/-- The text is cut at the first occurrence of the mark. -/
theorem cutAround?_eq_some_iff {mark : List Char} (hm : mark ≠ []) : ∀ {cs before after : List Char},
    Text.cutAround? mark cs = some (before, after) ↔
      cs = before ++ mark ++ after ∧ FirstAt mark (before ++ mark) before.length := by
  intro cs
  induction cs with
  | nil =>
    intro before after
    simp [Text.cutAround?, hm]
  | cons c cs ih =>
    intro before after
    rw [Text.cutAround?]
    by_cases hp : mark <+: c :: cs
    · rw [if_pos (List.isPrefixOf_iff_prefix.2 hp)]
      obtain ⟨rest, hr⟩ := hp
      cases before with
      | nil => simp [FirstAt, ← hr, eq_comm]
      | cons b before =>
        constructor
        · intro h
          cases h
        · rintro ⟨he, hf⟩
          refine absurd ?_ (firstAt_cons_iff.1 hf).1
          refine (prefix_append_iff after (by simp; omega)).1 ?_
          show mark <+: b :: before ++ mark ++ after
          rw [← he, ← hr]
          exact List.prefix_append mark rest
    · rw [if_neg (fun h => hp (List.isPrefixOf_iff_prefix.1 h))]
      cases before with
      | nil =>
        constructor
        · intro h
          obtain ⟨_, _, he⟩ := Option.map_eq_some_iff.1 h
          cases he
        · rintro ⟨he, -⟩
          exact absurd ⟨after, he.symm⟩ hp
      | cons b before =>
        constructor
        · intro h
          obtain ⟨⟨before', after'⟩, h, he⟩ := Option.map_eq_some_iff.1 h
          cases he
          obtain ⟨rfl, hf⟩ := ih.1 h
          refine ⟨rfl, firstAt_cons_iff.2 ⟨fun hp' => hp ?_, hf⟩⟩
          exact hp'.trans (List.prefix_append _ after)
        · rintro ⟨he, hf⟩
          cases he
          rw [ih.2 ⟨rfl, (firstAt_cons_iff.1 hf).2⟩]
          rfl

/-! ## Selectors and clauses -/

/-- A selector for one number is written with digits. -/
def Selector.WellFormed : Selector → Prop
  | .exact _ digits => digits ≠ [] ∧ ∀ c ∈ digits, Text.isDigit c = true
  | .other => True

/-- A clause has a well-formed selector and a balanced content. -/
def Clause.WellFormed (c : Clause) : Prop := c.selector.WellFormed ∧ Balanced c.content

/-- Nothing that a text begins with continues a row of digits. -/
def EndsDigits (rest : List Char) : Prop := ∀ c ∈ rest.head?, Text.isDigit c = false

theorem takeWhile_digits {digits rest : List Char} (hd : ∀ c ∈ digits, Text.isDigit c = true)
    (hr : EndsDigits rest) : (digits ++ rest).takeWhile Text.isDigit = digits := by
  rw [List.takeWhile_append_of_pos hd]
  cases rest with
  | nil => simp
  | cons c rest => simp [hr c rfl]

theorem dropWhile_digits {digits rest : List Char} (hd : ∀ c ∈ digits, Text.isDigit c = true)
    (hr : EndsDigits rest) : (digits ++ rest).dropWhile Text.isDigit = rest := by
  rw [List.dropWhile_append_of_pos hd]
  cases rest with
  | nil => simp
  | cons c rest => simp [hr c rfl]

/-- A selector is read off a text exactly if the text begins with it, as it is written. -/
theorem cutSelector?_append {s : Selector} {rest : List Char} (hs : s.WellFormed) (hr : EndsDigits rest) :
    cutSelector? (s.render ++ rest) = some (s, rest) := by
  cases s with
  | other => rfl
  | exact negative digits =>
    obtain ⟨hne, hd⟩ := hs
    cases negative with
    | true => simp [Selector.render, cutSelector?, takeWhile_digits hd hr, dropWhile_digits hd hr, hne]
    | false =>
      obtain ⟨d, ds, rfl⟩ := List.exists_cons_of_ne_nil hne
      have hm : d ≠ '-' := by
        rintro rfl
        exact absurd (hd '-' List.mem_cons_self) (by decide)
      have ht := takeWhile_digits hd hr
      have hd' := dropWhile_digits hd hr
      simp only [List.cons_append] at ht hd'
      simp [Selector.render, cutSelector?, hm, ht, hd']

/-- What is read off a text as a selector is well formed, and the text begins with it. -/
theorem render_of_cutSelector? {cs rest : List Char} {s : Selector} (h : cutSelector? cs = some (s, rest)) :
    s.WellFormed ∧ cs = s.render ++ rest := by
  unfold cutSelector? at h
  split at h
  · next cs =>
    split at h
    next negative inner hn =>
    have hcs : cs = (if negative then ['-'] else []) ++ inner := by split at hn <;> cases hn <;> rfl
    simp only [Option.ite_none_left_eq_some, Option.some.injEq, Prod.mk.injEq, List.isEmpty_iff] at h
    obtain ⟨hne, rfl, rfl⟩ := h
    refine ⟨⟨hne, fun c hc => ?_⟩, ?_⟩
    · exact List.all_eq_true.1 List.all_takeWhile c hc
    · simp [Selector.render, hcs, List.takeWhile_append_dropWhile]
  · cases h; exact ⟨trivial, rfl⟩
  · cases h

/-- A clause is read off a text exactly if it is well formed and the text begins with it. -/
theorem cutClause?_eq_some_iff {cs rest : List Char} {c : Clause} :
    cutClause? cs = some (c, rest) ↔ c.WellFormed ∧ cs = c.render ++ rest := by
  constructor
  · intro h
    unfold cutClause? at h
    split at h
    · next selector inner hs =>
      obtain ⟨n, hn, he⟩ := Option.map_eq_some_iff.1 h
      cases he
      obtain ⟨hw, rfl⟩ := render_of_cutSelector? hs
      obtain ⟨hi, hc⟩ := closes_take_of_closingBrace? hn
      refine ⟨⟨hw, closes_zero_iff.1 hc⟩, ?_⟩
      conv_lhs => rw [hi]
      simp [Clause.render]
    · cases h
  · rintro ⟨⟨hs, hb⟩, rfl⟩
    have hr : EndsDigits (' ' :: '{' :: (c.content ++ '}' :: rest)) := by
      intro d hd
      cases hd
      decide
    have he : c.render ++ rest = c.selector.render ++ ' ' :: '{' :: (c.content ++ '}' :: rest) := by
      simp [Clause.render]
    rw [he, cutClause?, cutSelector?_append hs hr]
    simp [closingBrace?_append rest (closes_zero_iff.2 hb)]

/-- A text is read as clauses exactly if it is at most so many well-formed clauses with spaces between them. -/
theorem clausesOf?_eq_some_iff : ∀ {fuel : Nat} {cs : List Char} {clauses : List Clause},
    clausesOf? fuel cs = some clauses ↔ clauses ≠ [] ∧ clauses.length ≤ fuel ∧
      (∀ c ∈ clauses, c.WellFormed) ∧ cs = Text.join ' ' (clauses.map Clause.render) := by
  intro fuel
  induction fuel with
  | zero =>
    intro cs clauses
    simp only [clausesOf?, Nat.le_zero, List.length_eq_zero_iff]
    exact ⟨fun h => (by cases h), fun h => absurd h.2.1 h.1⟩
  | succ fuel ih =>
    intro cs clauses
    constructor
    · intro h
      rw [clausesOf?] at h
      split at h
      · next clause hc =>
        cases h
        obtain ⟨hw, rfl⟩ := cutClause?_eq_some_iff.1 hc
        simp [hw, Text.join]
      · next clause rest hc =>
        obtain ⟨more, hm, rfl⟩ := Option.map_eq_some_iff.1 h
        obtain ⟨hw, rfl⟩ := cutClause?_eq_some_iff.1 hc
        obtain ⟨hne, hl, hws, rfl⟩ := ih.1 hm
        refine ⟨by simp, by simpa using hl, by simpa using ⟨hw, hws⟩, ?_⟩
        rw [List.map_cons, Text.join_cons _ _ (by simpa using hne)]
      · cases h
    · rintro ⟨hne, hl, hws, rfl⟩
      obtain ⟨clause, more, rfl⟩ := List.exists_cons_of_ne_nil hne
      have hw := hws clause List.mem_cons_self
      cases more with
      | nil =>
        have he : Text.join ' ' ([clause].map Clause.render) = clause.render ++ [] := (List.append_nil _).symm
        rw [clausesOf?, cutClause?_eq_some_iff.2 ⟨hw, he⟩]
      | cons second more =>
        have hm := ih.2 ⟨List.cons_ne_nil second more, Nat.le_of_succ_le_succ hl,
          fun c hc => hws c (List.mem_cons_of_mem _ hc), rfl⟩
        rw [List.map_cons, Text.join_cons _ _ (by simp), clausesOf?, cutClause?_eq_some_iff.2 ⟨hw, rfl⟩]
        simp only [hm]
        rfl

/-! ## Directives -/

/-- A directive that can be told from its text: its parameter is not empty, has no braces and does not run into the
mark, and there are two or three well-formed clauses. -/
structure Directive.WellFormed (d : Directive) : Prop where
  parameter_ne_nil : d.parameter ≠ []
  no_open : '{' ∉ d.parameter
  no_close : '}' ∉ d.parameter
  mark_first : FirstAt Directive.mark (d.parameter ++ Directive.mark) d.parameter.length
  two_or_three : d.clauses.length = 2 ∨ d.clauses.length = 3
  clauses : ∀ c ∈ d.clauses, c.WellFormed

/-- The clauses of a well-formed directive are read back from between the mark and the last brace. -/
theorem Directive.WellFormed.clausesOf?_join {d : Directive} (h : d.WellFormed) :
    clausesOf? 3 (Text.join ' ' (d.clauses.map Clause.render)) = some d.clauses := by
  have hl := h.two_or_three
  refine clausesOf?_eq_some_iff.2 ⟨?_, by omega, h.clauses, rfl⟩
  rintro hn
  simp [hn] at hl

/-- A well-formed directive is read back. -/
theorem ofText?_render {d : Directive} (h : d.WellFormed) : Directive.ofText? d.render = some d := by
  have hc := h.clausesOf?_join
  have hm : Text.cutAround? Directive.mark
      (d.parameter ++ Directive.mark ++ Text.join ' ' (d.clauses.map Clause.render)) =
        some (d.parameter, Text.join ' ' (d.clauses.map Clause.render)) :=
    (cutAround?_eq_some_iff (by decide)).2 ⟨rfl, h.mark_first⟩
  have hp : (d.parameter.isEmpty || d.parameter.contains '{' || d.parameter.contains '}') = false := by
    simp [h.parameter_ne_nil, h.no_open, h.no_close]
  have hl := h.two_or_three
  obtain ⟨parameter, clauses⟩ := d
  unfold Directive.ofText? Directive.render
  simp only [List.cons_append, List.getLast?_append, List.getLast?_singleton, Option.some_or, ne_eq, not_true_eq_false,
    if_false, List.dropLast_concat, hm, hp, hc]
  match clauses, hl with
  | first :: second :: more, _ => simp

/-- What is read as a directive is well formed, and the text is how it is written. -/
theorem render_of_ofText? {text : List Char} {d : Directive} (h : Directive.ofText? text = some d) :
    d.WellFormed ∧ text = d.render := by
  unfold Directive.ofText? at h
  split at h
  · next rest =>
    split at h
    · cases h
    · next hl =>
      have hr : rest = rest.dropLast ++ ['}'] := (List.dropLast_append_getLast? '}' (not_not.1 hl)).symm
      split at h
      · cases h
      · next parameter body hm =>
        split at h
        · cases h
        · next hp =>
          split at h
          · next first second more hc =>
            cases h
            obtain ⟨hb, hf⟩ := (cutAround?_eq_some_iff (by decide)).1 hm
            obtain ⟨-, hn, hw, rfl⟩ := clausesOf?_eq_some_iff.1 hc
            simp only [Bool.or_eq_true, List.isEmpty_iff, List.contains_iff_mem, not_or] at hp
            obtain ⟨⟨hne, ho⟩, hcl⟩ := hp
            refine ⟨⟨hne, ho, hcl, hf, ?_, hw⟩, ?_⟩
            · simp only [List.length_cons] at hn ⊢
              omega
            · rw [hr, hb]
              rfl
          · cases h
  · cases h

/-- **Reading is the inverse of writing.** A text is read as a directive exactly if the directive is well formed and
the text is how it is written; a text that no well-formed directive is written as is not read at all. -/
theorem ofText?_eq_some_iff_render (text : List Char) :
    (∀ d : Directive, Directive.ofText? text = some d ↔ d.WellFormed ∧ text = d.render) ∧
      (Directive.ofText? text = none ↔ ¬∃ d : Directive, d.WellFormed ∧ text = d.render) := by
  have hiff : ∀ d : Directive, Directive.ofText? text = some d ↔ d.WellFormed ∧ text = d.render := by
    intro d
    constructor
    · exact render_of_ofText?
    · rintro ⟨hw, rfl⟩
      exact ofText?_render hw
  refine ⟨hiff, ?_⟩
  rw [Option.eq_none_iff_forall_ne_some, not_exists]
  exact forall_congr' fun d => not_congr (hiff d)

/-- The mark overlaps itself: here it ends too early for the rest to be clauses. -/
example : Directive.ofText? "{n, plural, plural, =0 {none} other {{n} of them}}".toList = none := by decide

end Phrasebook.Template
