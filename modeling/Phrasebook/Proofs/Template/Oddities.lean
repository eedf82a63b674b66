import Mathlib.Algebra.GroupWithZero.Nat
import Mathlib.Data.List.Perm.Basic
import Phrasebook.Proofs.Appearance
import Phrasebook.Proofs.Template.Division
import Phrasebook.Proofs.Template.Grammar
import Phrasebook.Proofs.Text.Cutting

/-!
# What is odd about a text

What a text is read as is said without a reader: which names and how many placeholders without a name it has, whether it
is almost a directive, and which of its parameters come again.

* `resemblesDirective_iff`: which texts look like a directive.
* `parses_iff`: the parameters and the blanks of a text, of a directive those of its clauses.
* `comesAgain_iff`: the parameters that come again, in the order in which they first do.
* `oddities_iff`: so the findings of a text are what is odd about it, and nothing else.
-/

namespace Phrasebook.Template

/-! ## Texts that look like a directive -/

/-- A text with an opening brace, a run without braces, a comma and, with white space around it, `plural` and a comma.
-/
def LooksLikeDirective (cs : List Char) : Prop :=
  ∃ before run blank blank' after,
    cs = before ++ '{' :: (run ++ ',' :: (blank ++ "plural".toList ++ blank' ++ ',' :: after)) ∧
      (∀ c ∈ run, c ≠ '{' ∧ c ≠ '}') ∧ (∀ c ∈ blank, Text.isBlank c = true) ∧ ∀ c ∈ blank', Text.isBlank c = true

/-- Behind the white space that a text begins with lies a word exactly if the text is white space, the word and the
rest. -/
theorem dropWhile_isBlank_eq_append_iff {cs word rest : List Char} {c : Char} (hword : word.head? = some c)
    (hc : Text.isBlank c = false) :
    cs.dropWhile Text.isBlank = word ++ rest ↔
      ∃ blank, cs = blank ++ word ++ rest ∧ ∀ b ∈ blank, Text.isBlank b = true := by
  constructor
  · intro h
    refine ⟨cs.takeWhile Text.isBlank, ?_, fun b hb => ?_⟩
    · rw [List.append_assoc, ← h, List.takeWhile_append_dropWhile]
    · exact List.all_eq_true.1 List.all_takeWhile b hb
  · rintro ⟨blank, rfl, hblank⟩
    obtain ⟨word, rfl⟩ := List.head?_eq_some_iff.1 hword
    rw [List.append_assoc, List.dropWhile_append_of_pos hblank, List.cons_append,
      List.dropWhile_cons_of_neg (by simp [hc])]

theorem startsLikeMark_iff {cs : List Char} : startsLikeMark cs = true ↔ ∃ blank blank' after,
    cs = ',' :: (blank ++ "plural".toList ++ blank' ++ ',' :: after) ∧ (∀ c ∈ blank, Text.isBlank c = true) ∧
      ∀ c ∈ blank', Text.isBlank c = true := by
  have hplural : ∀ cs rest : List Char, cs.dropWhile Text.isBlank = "plural".toList ++ rest ↔
      ∃ blank, cs = blank ++ "plural".toList ++ rest ∧ ∀ b ∈ blank, Text.isBlank b = true :=
    fun _ _ => dropWhile_isBlank_eq_append_iff (c := 'p') (by decide) (by decide)
  have hcomma : ∀ cs rest : List Char, cs.dropWhile Text.isBlank = [','] ++ rest ↔
      ∃ blank, cs = blank ++ [','] ++ rest ∧ ∀ b ∈ blank, Text.isBlank b = true :=
    fun _ _ => dropWhile_isBlank_eq_append_iff rfl (by decide)
  constructor
  · intro h
    unfold startsLikeMark at h
    split at h
    · next cs =>
      split at h
      · next rest hrest =>
        obtain ⟨after, hafter⟩ := List.head?_eq_some_iff.1 (of_decide_eq_true h)
        obtain ⟨blank', rfl, hblank'⟩ := (hcomma _ after).1 hafter
        obtain ⟨blank, rfl, hblank⟩ := (hplural _ _).1 (Text.after?_eq_some_iff.1 hrest)
        refine ⟨blank, blank', after, ?_, hblank, hblank'⟩
        simp only [List.append_assoc, List.singleton_append]
      · cases h
    · cases h
  · rintro ⟨blank, blank', after, rfl, hblank, hblank'⟩
    have hword := (hplural _ (blank' ++ ',' :: after)).2 ⟨blank, rfl, hblank⟩
    have hafter := (hcomma _ after).2 ⟨blank', rfl, hblank'⟩
    simp only [List.append_assoc, List.singleton_append] at hword hafter
    simp only [startsLikeMark, List.append_assoc, hword, Text.after?_append, hafter, List.head?_cons, decide_true]

theorem runHoldsMark_iff {cs : List Char} : runHoldsMark cs = true ↔
    ∃ run rest, cs = run ++ rest ∧ (∀ c ∈ run, c ≠ '{' ∧ c ≠ '}') ∧ startsLikeMark rest = true := by
  induction cs with
  | nil =>
    constructor
    · intro h
      cases h
    · rintro ⟨run, rest, h, -, hstarts⟩
      obtain ⟨-, rfl⟩ := List.append_eq_nil_iff.1 h.symm
      cases hstarts
  | cons c cs ih =>
    simp only [runHoldsMark, Bool.and_eq_true, Bool.or_eq_true, decide_eq_true_eq, ih]
    constructor
    · rintro ⟨⟨hopen, hclose⟩, hstarts | ⟨run, rest, rfl, hrun, hstarts⟩⟩
      · exact ⟨[], c :: cs, rfl, by simp, hstarts⟩
      · exact ⟨c :: run, rest, rfl, List.forall_mem_cons.2 ⟨⟨hopen, hclose⟩, hrun⟩, hstarts⟩
    · rintro ⟨run, rest, h, hrun, hstarts⟩
      cases run with
      | nil =>
        obtain rfl := h
        obtain ⟨_, _, _, hcomma, -⟩ := startsLikeMark_iff.1 hstarts
        obtain ⟨rfl, -⟩ := List.cons.inj hcomma
        exact ⟨by decide, Or.inl hstarts⟩
      | cons d run =>
        obtain ⟨rfl, rfl⟩ := List.cons.inj h
        obtain ⟨hc, hrun⟩ := List.forall_mem_cons.1 hrun
        exact ⟨hc, Or.inr ⟨run, rest, rfl, hrun, hstarts⟩⟩

/-- **Which texts look like a directive.** -/
theorem resemblesDirective_iff {cs : List Char} : resemblesDirective cs = true ↔ LooksLikeDirective cs := by
  have hsearch : ∀ cs, resemblesDirective cs = true ↔ ∃ before rest, cs = before ++ '{' :: rest ∧
      runHoldsMark rest = true := by
    intro cs
    induction cs with
    | nil => simp [resemblesDirective]
    | cons c cs ih =>
      simp only [resemblesDirective, Bool.or_eq_true, Bool.and_eq_true, decide_eq_true_eq, ih]
      constructor
      · rintro (⟨rfl, hrun⟩ | ⟨before, rest, rfl, hrun⟩)
        · exact ⟨[], cs, rfl, hrun⟩
        · exact ⟨c :: before, rest, rfl, hrun⟩
      · rintro ⟨before, rest, h, hrun⟩
        cases before with
        | nil =>
          obtain ⟨rfl, rfl⟩ := List.cons.inj h
          exact Or.inl ⟨rfl, hrun⟩
        | cons d before =>
          obtain ⟨rfl, rfl⟩ := List.cons.inj h
          exact Or.inr ⟨before, rest, rfl, hrun⟩
  rw [hsearch]
  constructor
  · rintro ⟨before, rest, rfl, hrun⟩
    obtain ⟨run, rest, rfl, hfree, hstarts⟩ := runHoldsMark_iff.1 hrun
    obtain ⟨blank, blank', after, rfl, hblank, hblank'⟩ := startsLikeMark_iff.1 hstarts
    exact ⟨before, run, blank, blank', after, rfl, hfree, hblank, hblank'⟩
  · rintro ⟨before, run, blank, blank', after, rfl, hfree, hblank, hblank'⟩
    refine ⟨before, _, rfl, runHoldsMark_iff.2 ⟨run, _, rfl, hfree, ?_⟩⟩
    exact startsLikeMark_iff.2 ⟨blank, blank', after, rfl, hblank, hblank'⟩

/-! ## What a text is read as -/

/-- The names in the placeholders of a text, in order, and the number of placeholders without a name. -/
def Scans (cs : List Char) (names : List String) (blanks : Nat) : Prop :=
  ∃ cuts : Cuts, cuts.Divides cs ∧ names = cuts.names ∧ blanks = cuts.blanks

/-- A text that some well-formed directive is written as. -/
def IsDirective (cs : List Char) : Prop := ∃ d : Directive, d.WellFormed ∧ cs = d.render

/-- The parameters of a text, in order and repeated as they are, and the number of its placeholders without a name: of a
directive its own parameter and what is in its clauses, of any other text what is in the whole of it. -/
inductive Parses (cs : List Char) : List String → Nat → Prop
  | directive {d : Directive} {scans : List (List String × Nat)} (wellFormed : d.WellFormed) (text : cs = d.render)
      (clauses : List.Forall₂ (fun clause scan => Scans clause.content scan.1 scan.2) d.clauses scans) :
      Parses cs (String.ofList d.parameter :: scans.flatMap (·.1)) (scans.map (·.2)).sum
  | plain {names : List String} {blanks : Nat} (other : ¬IsDirective cs) (scan : Scans cs names blanks) :
      Parses cs names blanks

theorem scans_iff {cs : List Char} {names : List String} {blanks : Nat} :
    Scans cs names blanks ↔ names = (Cuts.ofText cs).names ∧ blanks = (Cuts.ofText cs).blanks := by
  simp only [Scans, Cuts.divides_iff, exists_eq_left]

theorem isDirective_iff {cs : List Char} : IsDirective cs ↔ ∃ d, Directive.ofText? cs = some d := by
  constructor
  · rintro ⟨d, hwf, rfl⟩
    exact ⟨d, ofText?_render hwf⟩
  · rintro ⟨d, hd⟩
    exact ⟨d, render_of_ofText? hd⟩

/-- What is in the clauses of a directive, clause by clause. -/
theorem forall₂_scans_iff {clauses : List Clause} {scans : List (List String × Nat)} :
    List.Forall₂ (fun clause scan => Scans clause.content scan.1 scan.2) clauses scans ↔
      scans = clauses.map fun clause =>
        ((Cuts.ofText clause.content).names, (Cuts.ofText clause.content).blanks) :=
  forall₂_iff_eq_map fun _ _ => by rw [scans_iff, Prod.ext_iff]

theorem blanks_ofDirective (d : Directive) : (ofDirective d).blanks =
    (d.clauses.map fun clause => (Cuts.ofText clause.content).blanks).sum := by
  simp only [ofDirective, List.countP_flatMap, List.map_map]
  rfl

/-- **What a text is read as.** -/
theorem parses_iff {text : String} {params : List String} {blanks : Nat} :
    Parses text.toList params blanks ↔ params = (ofText text).params ∧ blanks = (ofText text).blanks := by
  unfold ofText
  cases hd : Directive.ofText? text.toList with
  | some d =>
    obtain ⟨hwf, htext⟩ := render_of_ofText? hd
    have hparams : (ofDirective d).params = String.ofList d.parameter ::
        (d.clauses.map fun clause => ((Cuts.ofText clause.content).names, (Cuts.ofText clause.content).blanks)).flatMap
          (·.1) := by
      simp only [ofDirective, List.flatMap_map]
    rw [blanks_ofDirective, hparams]
    constructor
    · rintro (⟨hwf', htext', hclauses⟩ | ⟨hother, -⟩)
      · rw [htext', ofText?_render hwf'] at hd
        obtain rfl := Option.some.inj hd
        obtain rfl := forall₂_scans_iff.1 hclauses
        exact ⟨rfl, by rw [List.map_map]; rfl⟩
      · exact absurd ⟨d, hwf, htext⟩ hother
    · rintro ⟨rfl, rfl⟩
      have hparses := Parses.directive hwf htext (forall₂_scans_iff.2 rfl)
      rw [List.map_map] at hparses
      exact hparses
  | none =>
    have hother : ¬IsDirective text.toList := by
      rw [isDirective_iff]
      rintro ⟨d, hd'⟩
      rw [hd] at hd'
      cases hd'
    constructor
    · rintro (⟨hwf, htext, -⟩ | ⟨-, hscan⟩)
      · exact absurd ⟨_, hwf, htext⟩ hother
      · exact scans_iff.1 hscan
    · exact fun h => .plain hother (scans_iff.2 h)

theorem nearDirective_iff {text : String} : (ofText text).nearDirective = true ↔
    LooksLikeDirective text.toList ∧ ¬IsDirective text.toList := by
  rw [isDirective_iff, ← resemblesDirective_iff]
  unfold ofText
  cases Directive.ofText? text.toList with
  | some d => simp [ofDirective]
  | none => simp

/-! ## Parameters that come again -/

/-- The names that are in a list twice or more, each once, ordered by when they come for the second time. -/
structure ComesAgain (names again : List String) : Prop where
  nodup : again.Nodup
  mem_iff : ∀ name, name ∈ again ↔ 2 ≤ names.count name
  ordered : again.Pairwise fun name other => ∃ start, start <+: names ∧ 2 ≤ start.count name ∧ start.count other < 2

/-- There is but one list of the names that come again. -/
theorem ComesAgain.unique {names again again' : List String} (h : ComesAgain names again)
    (h' : ComesAgain names again') : again = again' := by
  have hperm : again.Perm again' :=
    (List.perm_ext_iff_of_nodup h.nodup h'.nodup).2 fun name => (h.mem_iff name).trans (h'.mem_iff name).symm
  refine hperm.eq_of_pairwise ?_ h.ordered h'.ordered
  rintro name other - - ⟨start, hstart, hname, hother⟩ ⟨start', hstart', hother', hname'⟩
  -- of two beginnings of the list one goes on where the other one ends, and has no fewer of any name
  rcases List.prefix_or_prefix_of_prefix hstart hstart' with hle | hle
  · have := hle.sublist.count_le name
    omega
  · have := hle.sublist.count_le other
    omega

/-- A name is added to those that come again if it was there before. -/
theorem comesAgain_concat (seen names : List String) (name : String) : comesAgain seen (names ++ [name]) =
    if name ∈ seen ∨ name ∈ names then comesAgain seen names ++ [name] else comesAgain seen names := by
  induction names generalizing seen with
  | nil => simp [comesAgain]
  | cons first names ih =>
    rw [List.cons_append, comesAgain, comesAgain]
    by_cases hfirst : first ∈ seen
    · have hiff : name ∈ seen ∨ name ∈ first :: names ↔ name ∈ seen ∨ name ∈ names := by
        rw [List.mem_cons]
        constructor
        · rintro (h | rfl | h)
          · exact Or.inl h
          · exact Or.inl hfirst
          · exact Or.inr h
        · rintro (h | h)
          · exact Or.inl h
          · exact Or.inr (Or.inr h)
      rw [if_pos hfirst, if_pos hfirst, ih]
      simp only [hiff]
      split <;> rfl
    · rw [if_neg hfirst, if_neg hfirst, ih]
      simp only [List.mem_cons, or_assoc, or_left_comm]

theorem mem_comesAgain_iff {names : List String} {name : String} :
    name ∈ comesAgain [] names ↔ 2 ≤ names.count name := by
  induction names using List.reverseRecOn with
  | nil => simp [comesAgain]
  | append_singleton names last ih =>
    have hpos : last ∈ names ↔ 0 < names.count last := List.count_pos_iff.symm
    rw [comesAgain_concat, List.count_append]
    by_cases hname : name = last
    · subst hname
      rw [List.count_singleton_self]
      split
      · next hold =>
        have := hpos.1 (by simpa using hold)
        simp only [List.mem_append, List.mem_singleton, or_true, true_iff]
        omega
      · next hnew =>
        have := mt hpos.2 (by simpa using hnew)
        rw [ih]
        omega
    · rw [List.count_singleton, beq_false_of_ne (Ne.symm hname), if_neg Bool.false_ne_true, Nat.add_zero, ← ih]
      split
      · rw [List.mem_append, List.mem_singleton, or_iff_left hname]
      · exact Iff.rfl

/-- **The parameters that come again**, ordered by when they first do. -/
theorem comesAgain_eraseDups (names : List String) : ComesAgain names (comesAgain [] names).eraseDups := by
  refine ⟨(firstSeen_eraseDups _).nodup, fun name => by rw [List.mem_eraseDups, mem_comesAgain_iff], ?_⟩
  induction names using List.reverseRecOn with
  | nil => exact .nil
  | append_singleton names last ih =>
    have hgrow : (comesAgain [] names).eraseDups.Pairwise fun name other =>
        ∃ start, start <+: names ++ [last] ∧ 2 ≤ start.count name ∧ start.count other < 2 := by
      refine ih.imp ?_
      rintro name other ⟨start, hstart, hcounts⟩
      exact ⟨start, hstart.trans (List.prefix_append names [last]), hcounts⟩
    rw [comesAgain_concat]
    split
    · rw [eraseDups_concat]
      split
      · exact hgrow
      · next hnew =>
        refine List.pairwise_append.2 ⟨hgrow, List.pairwise_singleton _ last, fun name hname other hother => ?_⟩
        obtain rfl := List.mem_singleton.1 hother
        rw [List.mem_eraseDups, mem_comesAgain_iff] at hname
        rw [mem_comesAgain_iff, Nat.not_le] at hnew
        exact ⟨names, List.prefix_append names [other], hname, hnew⟩
    · exact hgrow

/-- **The parameters that come again** are those that are found to. -/
theorem comesAgain_iff {t : Template} {again : List String} : ComesAgain t.params again ↔ again = t.repeated := by
  constructor
  · intro h
    exact h.unique (comesAgain_eraseDups t.params)
  · rintro rfl
    exact comesAgain_eraseDups t.params

/-! ## The findings of a text -/

/-- There is one finding if something holds, and none if it does not. -/
def FoundIf (p : Prop) (finding : Finding) (found : List Finding) : Prop := p ∧ found = [finding] ∨ ¬p ∧ found = []

theorem foundIf_iff {p : Prop} [Decidable p] {finding : Finding} {found : List Finding} :
    FoundIf p finding found ↔ found = if p then [finding] else [] := by
  unfold FoundIf
  split
  · next h => simp [h]
  · next h => simp [h]

/-- What is odd about a text at a path, in order: it looks like a directive but is none, it has placeholders without a
name, and some of its parameters come again. -/
inductive Oddities (path text : String) : List Finding → Prop
  | ofRead {params again : List String} {blanks : Nat} {near without : List Finding}
      (read : Parses text.toList params blanks)
      (looks : FoundIf (LooksLikeDirective text.toList ∧ ¬IsDirective text.toList) (.nearDirective path) near)
      (empty : FoundIf (blanks ≠ 0) (.blankPlaceholders path blanks) without)
      (repeated : ComesAgain params again) :
      Oddities path text (near ++ without ++ again.map (.repeatedParameter path))

/-- **What is odd about a text is what is found.** -/
theorem oddities_iff {path text : String} {found : List Finding} :
    Oddities path text found ↔ found = (ofText text).findings path := by
  have hnear : ∀ near, FoundIf (LooksLikeDirective text.toList ∧ ¬IsDirective text.toList) (.nearDirective path) near ↔
      near = if (ofText text).nearDirective then [.nearDirective path] else [] := by
    intro near
    rw [← nearDirective_iff, foundIf_iff]
  have hwithout : ∀ without, FoundIf ((ofText text).blanks ≠ 0) (.blankPlaceholders path (ofText text).blanks) without ↔
      without = if (ofText text).blanks = 0 then [] else [.blankPlaceholders path (ofText text).blanks] := by
    intro without
    rw [foundIf_iff, ite_not]
  constructor
  · rintro ⟨hread, hlooks, hempty, hrepeated⟩
    obtain ⟨rfl, rfl⟩ := parses_iff.1 hread
    rw [(hnear _).1 hlooks, (hwithout _).1 hempty, comesAgain_iff.1 hrepeated]
    rfl
  · rintro rfl
    exact .ofRead (parses_iff.2 ⟨rfl, rfl⟩) ((hnear _).2 rfl) ((hwithout _).2 rfl) (comesAgain_iff.2 rfl)

end Phrasebook.Template
