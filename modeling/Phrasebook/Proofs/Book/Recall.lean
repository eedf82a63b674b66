import Phrasebook.Proofs.Book.Memory
import Phrasebook.Proofs.Template.Restating

/-!
# Answers that are recalled for other calls

A remembered text answers every call that is the same as the one it was written for. Calls that are the same have alike
values, and these need not be one value each.

* `sourceOf` is the value that the text of a call is filled from, and `rendering_eq` fills it.
* `sourceOf_alike`: calls that are the same have one source, or none of them has.
* `freshAnswer_eq_iff`: a book that remembers nothing answers them the same exactly if for each name that the text shows
  they state the same offset from universal time.
* `Reachable.answer_recalled`: whatever has been asked before, a call is answered as if for the first time, or as an
  earlier call that is the same and states another offset for a name that is shown.
-/

namespace Phrasebook

namespace Book

variable {b : Book} {call call' : Call}

/-! ## The value that is filled -/

/-- The value that the text of a call is filled from. -/
def sourceOf (b : Book) (call : Call) : Except Fault Value :=
  match call.unhashable? with
  | some typeName => .error (.unhashable typeName)
  | none =>
    match b.editions.get? call.locale with
    | none => .error (.unknownLocale call.locale)
    | some edition => do
      let catalog ← b.analysis
      let contract ← catalog.contract (Path.resolve call.key call.scope) none
      if contract.missing call.values = [] then do
        let path ← pathUnder b.repository contract edition.texts call
        textAt edition.texts path call.locale
      else .error (.missing (Path.resolve call.key call.scope) (contract.missing call.values))

theorem rendering_eq (b : Book) (call : Call) : b.rendering call = b.sourceOf call >>= Template.fill call.values := by
  unfold rendering sourceOf
  cases call.unhashable? with
  | some typeName => rfl
  | none =>
    cases b.editions.get? call.locale with
    | none => rfl
    | some edition =>
      simp only [write_eq, bind_assoc]
      refine bind_congr fun catalog => bind_congr fun contract => ?_
      split
      · rw [bind_assoc]
      · rfl

/-- Two computations that are one, or fail for faults that are got over. -/
def FailAlike {α : Type} (x y : Except Fault α) : Prop :=
  x = y ∨ ∃ fault fault', x = .error fault ∧ y = .error fault' ∧ escapes fault = false ∧ escapes fault' = false

theorem FailAlike.bind {α β : Type} {x y : Except Fault α} (h : FailAlike x y) (f : α → Except Fault β) :
    FailAlike (x >>= f) (y >>= f) := by
  rcases h with rfl | ⟨fault, fault', rfl, rfl, he, he'⟩
  · exact Or.inl rfl
  · exact Or.inr ⟨fault, fault', rfl, rfl, he, he'⟩

/-- Alike counts select one variant; where there is none, the faults name the counts. -/
theorem variantIn_alike {count count' : Value} (h : count.Alike count') (repository : Plural.Repository)
    (texts : Ordered String Value) (path locale : String) :
    FailAlike (variantIn repository texts path locale count) (variantIn repository texts path locale count') := by
  have hcandidates : candidates repository locale count = candidates repository locale count' := by
    simp only [candidates, h.category_eq, h.agrees_int_eq]
  unfold variantIn
  rw [hcandidates]
  cases candidates repository locale count' with
  | error fault => exact Or.inl rfl
  | ok categories =>
    simp only [ok_bind]
    cases categories.find? fun category => texts.has (Plural.variantPath path category) with
    | some category => exact Or.inl rfl
    | none =>
      have unfit_escapes : ∀ count, escapes (unfit path count locale) = false := fun count =>
        Fault.escapes_of_isCaught (isCaught_unfit path count locale)
      exact Or.inr ⟨_, _, rfl, rfl, unfit_escapes count, unfit_escapes count'⟩

theorem pathUnder_alike (h : call.same call' = true) (ha : call.values.Alike call'.values)
    (repository : Plural.Repository) (contract : Contract) (texts : Ordered String Value) :
    FailAlike (pathUnder repository contract texts call) (pathUnder repository contract texts call') := by
  obtain ⟨hkey, hlocale, hscope, -⟩ := Call.same_iff.1 h
  unfold pathUnder
  rw [hkey, hlocale, hscope]
  split
  · exact variantIn_alike (ha.getD countName) repository texts _ _
  · exact Or.inl rfl

/-- **Calls that are the same have one source.** Or none of them has one, and the faults are got over if they differ. -/
theorem sourceOf_alike (h : call.same call' = true) : FailAlike (b.sourceOf call) (b.sourceOf call') := by
  obtain ⟨hkey, hlocale, hscope, -⟩ := Call.same_iff.1 h
  unfold sourceOf
  rw [← Call.unhashable?_eq_of_same h, ← hlocale, ← hkey, ← hscope]
  cases hu : call.unhashable? with
  | some typeName => exact Or.inl rfl
  | none =>
    have ha := Call.alike_of_same h hu
    cases b.editions.get? call.locale with
    | none => exact Or.inl rfl
    | some edition =>
      simp only
      cases b.analysis with
      | error fault => exact Or.inl rfl
      | ok catalog =>
        simp only [ok_bind]
        cases catalog.contract (Path.resolve call.key call.scope) none with
        | error fault => exact Or.inl rfl
        | ok contract =>
          simp only [ok_bind, ← ha.missing_eq]
          split
          · exact (pathUnder_alike h ha b.repository contract edition.texts).bind _
          · exact Or.inl rfl

theorem unhashable?_of_sourceOf {value : Value} (h : b.sourceOf call = .ok value) : call.unhashable? = none := by
  unfold sourceOf at h
  split at h
  · cases h
  · next hu => exact hu

/-! ## Fresh answers -/

/-- The text that is written for a call shows a name: it stands in a placeholder of what the text is filled from. -/
def Shows (b : Book) (call : Call) (name : String) : Prop :=
  ∃ value text, b.sourceOf call = .ok value ∧ Template.fill call.values value = .ok text ∧
    Template.Mentions call.values value name

/-- What a book that remembers nothing answers a call. -/
def freshAnswer (b : Book) (call : Call) : Except Fault String := (b.forgetful.answer call).2.outcome

theorem freshAnswer_eq (hs : b.Sound) (call : Call) : b.freshAnswer call = answered call (b.rendering call) :=
  (answer_of_miss hs.forgetful (Fifo.find?_clear _ _)).1

/-- **When calls that are the same are answered the same.** Exactly if for each name that their text shows they state
the same offset. -/
theorem freshAnswer_eq_iff (hs : b.Sound) (h : call.same call' = true) :
    b.freshAnswer call = b.freshAnswer call' ↔
      ∀ name, b.Shows call name → call.values.offsetAt name = call'.values.offsetAt name := by
  have hkey := (Call.same_iff.1 h).1
  rw [freshAnswer_eq hs, freshAnswer_eq hs, rendering_eq, rendering_eq]
  cases hsource : b.sourceOf call with
  | error fault =>
    -- no text is shown, and the faults escape together
    refine iff_of_true ?_ ?_
    · rcases sourceOf_alike (b := b) h with he | ⟨f, f', he, he', hf, hf'⟩
      · rw [← he, hsource]
        simp only [answered, hkey]
        rfl
      · cases hsource.symm.trans he
        rw [he']
        exact (answered_error call hf).trans ((congrArg _ hkey).trans (answered_error call' hf').symm)
    · rintro name ⟨value, -, hv, -⟩
      cases hsource.symm.trans hv
  | ok value =>
    have ha := Call.alike_of_same h (unhashable?_of_sourceOf hsource)
    have hsource' : b.sourceOf call' = .ok value := by
      rcases sourceOf_alike (b := b) h with he | ⟨f, f', he, -⟩
      · rw [← he, hsource]
      · cases hsource.symm.trans he
    simp only [hsource', ok_bind]
    rcases Template.fill_alike ha value with ⟨f, f', hf, hf', he, he'⟩ | ⟨text, text', ht, ht', hiff⟩
    · -- no text is shown, and neither fault escapes
      rw [hf, hf', answered_error call he, answered_error call' he', hkey]
      refine iff_of_true rfl ?_
      rintro name ⟨value', text, hv, ht, -⟩
      cases hsource.symm.trans hv
      cases hf.symm.trans ht
    · have hshows : ∀ name, b.Shows call name ↔ Template.Mentions call.values value name := by
        intro name
        constructor
        · rintro ⟨value', -, hv, -, hm⟩
          cases hsource.symm.trans hv
          exact hm
        · exact fun hm => ⟨value, text, hsource, ht, hm⟩
      simp only [hshows]
      rw [ht, ht', ← hiff]
      exact ⟨fun he => Except.ok.inj he, fun he => congrArg Except.ok he⟩

/-! ## Asking one call after another -/

/-- The book after some calls one after the other. -/
def asked (b : Book) (calls : List Call) : Book := calls.foldl (fun b call => (b.answer call).1) b

theorem asked_concat (b : Book) (calls : List Call) (call : Call) :
    b.asked (calls ++ [call]) = ((b.asked calls).answer call).1 := by
  simp [asked]

theorem options_answer (hs : b.Sound) (call : Call) : (b.answer call).1.shelf.options = b.shelf.options := by
  rcases answer_fst hs call with h | h | ⟨text, -, h⟩ <;> simp [h]

/-- A call changes nothing about how calls are written. -/
theorem rendering_answer (hs : b.Sound) (call : Call) : (b.answer call).1.rendering = b.rendering := by
  funext call'
  unfold rendering analysis representative?
  rw [editions_answer hs, repository_answer hs, defaultLocale_answer hs, options_answer hs]

/-- After some calls a book is sound, and it writes calls as before; what it remembers then and has not remembered
before was written for one of them. -/
structure Asked (b b' : Book) (calls : List Call) : Prop where
  sound : b'.Sound
  rendering : b'.rendering = b.rendering
  memo : ∀ call text, (call, text) ∈ b'.memo.entries →
    (call, text) ∈ b.memo.entries ∨ call ∈ calls ∧ b.rendering call = .ok text

theorem Sound.asked (hs : b.Sound) (calls : List Call) : b.Asked (b.asked calls) calls := by
  induction calls using List.reverseRecOn with
  | nil => exact ⟨hs, rfl, fun call text hm => Or.inl hm⟩
  | append_singleton calls call ih =>
    rw [asked_concat]
    refine ⟨ih.sound.answer call, (rendering_answer ih.sound call).trans ih.rendering, fun call' text hm => ?_⟩
    rcases mem_memo_answer ih.sound hm with hm | ⟨rfl, hl⟩
    · exact (ih.memo call' text hm).imp_right fun ⟨hmem, hr⟩ => ⟨List.mem_append_left _ hmem, hr⟩
    · right
      rw [← ih.rendering]
      exact ⟨List.mem_append_right _ List.mem_cons_self, rendering_eq_ok_iff.2 hl⟩

/-- A book that remembered nothing before some calls answers a call as if for the first time, or as one of them that is
the same. -/
theorem answer_asked (hs : b.Sound) (earlier : List Call) (call : Call) :
    ((b.forgetful.asked earlier).answer call).2.outcome = b.freshAnswer call ∨
      ∃ call' ∈ earlier, call.same call' = true ∧
        ((b.forgetful.asked earlier).answer call).2.outcome = b.freshAnswer call' := by
  have ha := hs.forgetful.asked earlier
  cases hu : call.unhashable? with
  | some typeName =>
    left
    unfold freshAnswer
    rw [answer_of_unhashable hu, answer_of_unhashable hu]
  | none =>
    cases hm : (b.forgetful.asked earlier).memo.find? call.same with
    | none =>
      left
      rw [(answer_of_miss ha.sound hm).1, ha.rendering, freshAnswer_eq hs]
      rfl
    | some text =>
      right
      obtain ⟨hreply, call', hsame, hmem, -⟩ := answer_of_hit ha.sound hu hm
      rcases ha.memo call' text hmem with hmem | ⟨hmem, hr⟩
      · cases hmem
      · refine ⟨call', hmem, hsame, ?_⟩
        have hr : b.rendering call' = .ok text := hr
        rw [hreply, freshAnswer_eq hs, hr]
        rfl

end Book

namespace Session

/-- **What is recalled for a call.** In every session, calls that are the same are answered the same on an empty memory
exactly if for each name that their text shows they state the same offset from universal time. And whatever is asked on
an empty memory, a call is then answered as if for the first time, or as an earlier call that is the same and states
another offset for a name that is shown. -/
theorem Reachable.answer_recalled {s : Session} (hs : s.Reachable) :
    (∀ call call' : Call, call.same call' = true → (s.book.freshAnswer call = s.book.freshAnswer call' ↔
        ∀ name, s.book.Shows call name → call.values.offsetAt name = call'.values.offsetAt name)) ∧
      ∀ (earlier : List Call) (call : Call),
        let answer := ((s.book.forgetful.asked earlier).answer call).2.outcome
        answer = s.book.freshAnswer call ∨ ∃ call' ∈ earlier, call.same call' = true ∧
          answer = s.book.freshAnswer call' ∧
          ∃ name, s.book.Shows call name ∧ call.values.offsetAt name ≠ call'.values.offsetAt name := by
  refine ⟨fun call call' h => Book.freshAnswer_eq_iff hs.sound h, ?_⟩
  intro earlier call answer
  rcases Book.answer_asked hs.sound earlier call with ha | ⟨call', hmem, hsame, ha⟩
  · exact Or.inl ha
  · by_cases hall : ∀ name, s.book.Shows call name → call.values.offsetAt name = call'.values.offsetAt name
    · exact Or.inl (ha.trans ((Book.freshAnswer_eq_iff hs.sound hsame).2 hall).symm)
    · simp only [not_forall] at hall
      obtain ⟨name, hshows, hne⟩ := hall
      exact Or.inr ⟨call', hmem, hsame, ha, name, hshows, hne⟩

/-- The two zeros are one count: either of them is answered the same, whichever has been asked before. -/
theorem answer_recalled_zeros :
    let s := (blank "en" {} 4 (by decide)).after
      [.loadTree "en" [(.text "cat#one", .text "{count} cat"), (.text "cat#other", .text "{count} cats")]]
    let call := s.book.callOf "cat" none [(.text "count", .float (.zero false))] none
    let call' := s.book.callOf "cat" none [(.text "count", .float (.zero true))] none
    s.Reachable ∧ call.same call' = true ∧ s.book.freshAnswer call = s.book.freshAnswer call' ∧
      ((s.book.forgetful.asked [call']).answer call).2.outcome = s.book.freshAnswer call ∧
      (s.book.freshAnswer call).toOption = some "0 cats" := by
  intro s call call'
  have hs : s.Reachable := ⟨_, _, initial_blank "en" {} 4 (by decide), rfl⟩
  have hsame : call.same call' = true := by decide +kernel
  have hoffset : ∀ name, call.values.offsetAt name = call'.values.offsetAt name := by
    intro name
    by_cases hn : name = "count" <;>
      simp [call, call', Book.callOf, Table.offsetAt, Table.get?, Value.agrees_text, Value.offset?, hn]
  obtain ⟨hfresh, hasked⟩ := hs.answer_recalled
  refine ⟨hs, hsame, (hfresh call call' hsame).2 fun name _ => hoffset name, ?_, by decide +kernel⟩
  rcases hasked [call'] call with ha | ⟨call'', hmem, -, -, name, -, hne⟩
  · exact ha
  · obtain rfl := List.mem_singleton.1 hmem
    exact absurd (hoffset name) hne

/-- One instant in two offsets makes calls that are the same, and the text that was written for the first one answers
the second one. -/
theorem offset_is_recalled :
    let s := (blank "en" {} 4 (by decide)).after [.loadTree "en" [(.text "a", .text "{x}!")]]
    let date : Calendar.Date := { year := 2024, month := 1, day := 1 }
    let noon : Calendar.Moment := ⟨date, { hour := 12, minute := 0, second := 0, micro := 0 }, some .zero⟩
    let one : Calendar.Moment := ⟨date, { hour := 13, minute := 0, second := 0, micro := 0 }, some { minutes := 60 }⟩
    let call := s.book.callOf "a" none [(.text "x", .moment noon)] none
    let call' := s.book.callOf "a" none [(.text "x", .moment one)] none
    s.Reachable ∧ call.same call' = true ∧
      (s.book.freshAnswer call).toOption = some "2024-01-01 12:00:00+00:00!" ∧
      (s.book.freshAnswer call').toOption = some "2024-01-01 13:00:00+01:00!" ∧
      ((s.book.forgetful.asked [call]).answer call').2.outcome.toOption = some "2024-01-01 12:00:00+00:00!" := by
  intro s date noon one call call'
  refine ⟨⟨_, _, initial_blank "en" {} 4 (by decide), rfl⟩, ?_⟩
  decide +kernel

end Session

end Phrasebook
