import Phrasebook.Proofs.Book.Reachable

/-!
# What a phrase book remembers

* `licensed_earlier`: a remembered text was licensed by the contract of its phrase when it was written, and the edition
  of its locale has been the same since.
* `Reachable.text_of_mem_memo`: a remembered text is that of a leaf of the present phrase tree of its locale.
* `answerAfresh_of_mem_memo`: when a remembered text is what would be written now. It may not be, since a load of the
  representative tree changes the contracts of the phrases of other locales, too (`memo_outlives_contract`).
-/

namespace Phrasebook

namespace Book

variable {b b' : Book}

/-- What is remembered after some loads was remembered before them, and the edition of its locale is the same. -/
theorem Loaded.of_mem_memo (h : b.Loaded b') {call : Call} {text : String} (hm : (call, text) ∈ b'.memo.entries) :
    (call, text) ∈ b.memo.entries ∧ b'.editions.get? call.locale = b.editions.get? call.locale := by
  induction h with
  | refl => exact ⟨hm, rfl⟩
  | tail _ h ih =>
    obtain ⟨locale, tree, h⟩ := h
    obtain ⟨hm, hne⟩ := (mem_memo_load h).1 hm
    obtain ⟨hm', he⟩ := ih hm
    exact ⟨hm', (get?_editions_load h hne).trans he⟩

/-! ## Asking again -/

/-- A book with the same editions and default locale that remembers nothing. -/
def forgetful (b : Book) : Book := { b with memo := b.memo.clear, shelf := b.shelf.clear }

/-- The call that is asked when a call is asked again: an empty locale is the default one again. -/
def again (b : Book) (call : Call) : Call := b.callOf call.key (some call.locale) call.values call.scope

/-- What a book that remembers nothing answers when a call is asked again. -/
def answerAfresh (b : Book) (call : Call) : Except Fault String :=
  (b.forgetful.get call.key (some call.locale) call.values call.scope).2.outcome

/-- A call that is refused without more ado: it cannot be written, and the fault is got over. -/
def Refuses (b : Book) (call : Call) : Prop := ∃ fault, b.rendering call = .error fault ∧ escapes fault = false

theorem Sound.forgetful (hs : b.Sound) : b.forgetful.Sound := by
  refine ⟨hs.edition, Shelf.Sound.clear _ _, fun call text h => ?_⟩
  cases h

/-- A book that remembers nothing answers with what is written under the catalog made afresh. -/
theorem answerAfresh_eq (hs : b.Sound) (call : Call) :
    b.answerAfresh call = answered (b.again call) (b.rendering (b.again call)) :=
  (answer_of_miss hs.forgetful (Fifo.find?_clear _ _)).1

/-- A book that remembers nothing answers with a text exactly if the contract in force licenses the text, or if the call
is refused and the text is the key. -/
theorem answerAfresh_eq_ok_iff (hs : b.Sound) {call : Call} {text : String} :
    b.answerAfresh call = .ok text ↔ b.Licenses (b.again call) text ∨ text = call.key ∧ b.Refuses (b.again call) := by
  rw [answerAfresh_eq hs, ← rendering_eq_ok_iff]
  unfold Refuses
  cases h : b.rendering (b.again call) with
  | ok text' => simp [answered]
  | error fault =>
    simp only [reduceCtorEq, false_or, Except.error.injEq, exists_eq_left']
    cases he : escapes fault with
    | true => simp [answered_error_of_escapes _ he]
    | false => rw [answered_error _ he, Except.ok.injEq, and_iff_left rfl]; exact eq_comm

theorem again_eq {call : Call} (h : call.locale = "" → b.defaultLocale = "") : b.again call = call := by
  by_cases hl : call.locale = ""
  · obtain ⟨key, locale, scope, values⟩ := call
    simp only at hl h
    subst hl
    simp [again, callOf, h rfl]
  · simp [again, callOf, hl]

end Book

namespace Session

/-- A remembered text was written at some time: the contract that was then in force licensed it, and the edition of its
locale has not changed since. -/
theorem licensed_earlier {first : Session} (hf : first.Initial) (steps : List Step) {call : Call} {text : String}
    (hm : (call, text) ∈ (first.after steps).book.memo.entries) :
    ∃ earlier later, steps = earlier ++ later ∧ (first.after earlier).book.Licenses call text ∧
      (call.locale = "" → (first.after earlier).book.defaultLocale = "") ∧
      (first.after steps).book.editions.get? call.locale = (first.after earlier).book.editions.get? call.locale := by
  induction steps using List.reverseRecOn with
  | nil =>
    obtain ⟨_, _, _, _, b, hb, hl⟩ := hf.book
    obtain ⟨hm, -⟩ := hl.of_mem_memo hm
    obtain ⟨_, rfl⟩ := Book.ofCapacity_eq_ok hb
    cases hm
  | append_singleton steps step ih =>
    have hs : (first.after steps).book.Sound := Reachable.sound ⟨first, steps, hf, rfl⟩
    -- What was remembered before the step was written before it; the step keeps the edition.
    have old : (call, text) ∈ (first.after steps).book.memo.entries →
        (first.after (steps ++ [step])).book.editions.get? call.locale =
          (first.after steps).book.editions.get? call.locale →
        ∃ earlier later, steps ++ [step] = earlier ++ later ∧ (first.after earlier).book.Licenses call text ∧
          (call.locale = "" → (first.after earlier).book.defaultLocale = "") ∧
          (first.after (steps ++ [step])).book.editions.get? call.locale =
            (first.after earlier).book.editions.get? call.locale := by
      intro hm he
      obtain ⟨earlier, later, rfl, hl, hd, he'⟩ := ih hm
      exact ⟨earlier, later ++ [step], List.append_assoc _ _ _, hl, hd, he.trans he'⟩
    rw [after_concat] at hm old ⊢
    rcases book_run (first.after steps) step with h | ⟨key, locale, values, scope, h⟩ | h | ⟨locale, h⟩
    · obtain ⟨hm, he⟩ := h.of_mem_memo hm
      exact old hm he
    · rw [h] at hm old ⊢
      rw [Book.editions_answer hs] at old ⊢
      rcases Book.mem_memo_answer hs hm with hm | ⟨rfl, hl⟩
      · exact old hm rfl
      · exact ⟨steps, [step], rfl, hl, Book.defaultLocale_of_callOf, rfl⟩
    · rw [h] at hm old ⊢
      rw [Book.memo_catalog] at hm
      exact old hm (by rw [Book.editions_catalog])
    · rw [h] at hm old ⊢
      exact old hm rfl

/-- **No stale text is served.** A remembered text is what the value at a path among the leaves of the present phrase
tree of its locale is filled to, and the path is that of the phrase or of one of its variants. -/
theorem Reachable.text_of_mem_memo {s : Session} (hs : s.Reachable) {call : Call} {text : String}
    (hm : (call, text) ∈ s.book.memo.entries) :
    ∃ edition entries path value, s.book.editions.get? call.locale = some edition ∧
      Table.leaves s.book.shelf.options.maxDepth edition.tree = .ok entries ∧
      (path = Path.resolve call.key call.scope ∨
        ∃ category, path = Plural.variantPath (Path.resolve call.key call.scope) category) ∧
      ⟨path, value⟩ ∈ entries ∧ edition.texts.get? path = some value ∧ Template.fill call.values value = .ok text := by
  obtain ⟨-, edition, contract, he, -, path, value, hp, hv, hf⟩ := hs.sound.memo call text hm
  obtain ⟨entries, hl, ht⟩ := hs.sound.edition call.locale edition he
  refine ⟨edition, entries, path, value, he, hl, Book.eq_of_pathUnder hp, ?_, hv, hf⟩
  have htext := Ordered.mem_of_get? hv
  rw [ht] at htext
  obtain ⟨entry, hentry, h⟩ := List.mem_map.1 htext
  cases h
  exact hentry

/-- A plural phrase that was asked for before its locale got another phrase. -/
theorem text_of_mem_memo_cats :
    let s := (blank "en" {} 4 (by decide)).after
      [.loadTree "en" [(.text "cat#one", .text "{count} cat"), (.text "cat#other", .text "{count} cats")],
        .get "cat" none [(.text "count", .int 2)] none, .loadTree "fr" [(.text "cat#other", .text "{count} chats")]]
    ∃ call, (call, "2 cats") ∈ s.book.memo.entries ∧ ∃ edition entries path value,
      s.book.editions.get? call.locale = some edition ∧
      Table.leaves s.book.shelf.options.maxDepth edition.tree = .ok entries ∧
      (path = Path.resolve call.key call.scope ∨
        ∃ category, path = Plural.variantPath (Path.resolve call.key call.scope) category) ∧
      ⟨path, value⟩ ∈ entries ∧ edition.texts.get? path = some value ∧
      Template.fill call.values value = .ok "2 cats" := by
  intro s
  have hs : s.Reachable := ⟨_, _, initial_blank "en" {} 4 (by decide), rfl⟩
  have hm : s.book.memo.entries.map (·.2) = ["2 cats"] := by decide +kernel
  obtain ⟨⟨call, text⟩, hm, rfl⟩ := List.mem_map.1 (hm ▸ List.mem_singleton_self "2 cats")
  exact ⟨call, hm, hs.text_of_mem_memo hm⟩

/-! ## Remembered texts and the contract in force -/

/-- **When a remembered text is what would be written now.** Exactly if the contract that is in force now licenses it,
or if the call would be refused and the text is the key. It was what would be written at an earlier time, and it still
is unless the phrase is unknown now, or asks for what the call does not supply, or has got or lost its variants, or the
call is for an empty locale that stands for another one now. -/
theorem answerAfresh_of_mem_memo {first : Session} (hf : first.Initial) (steps : List Step) {call : Call}
    {text : String} (hm : (call, text) ∈ (first.after steps).book.memo.entries) :
    let now := (first.after steps).book
    (now.answerAfresh call = .ok text ↔
        now.Licenses (now.again call) text ∨ text = call.key ∧ now.Refuses (now.again call)) ∧
      ∃ earlier later contract, steps = earlier ++ later ∧ (first.after earlier).book.answerAfresh call = .ok text ∧
        (first.after earlier).book.contractOf (Path.resolve call.key call.scope) = .ok contract ∧
        ∀ contract', now.contractOf (Path.resolve call.key call.scope) = .ok contract' →
          contract'.missing call.values = [] → contract'.isPlural = contract.isPlural →
          (call.locale = "" → now.defaultLocale = "") → now.answerAfresh call = .ok text := by
  intro now
  have hnow : now.Sound := Reachable.sound ⟨first, steps, hf, rfl⟩
  refine ⟨Book.answerAfresh_eq_ok_iff hnow, ?_⟩
  obtain ⟨earlier, later, hsteps, hl, hd, he⟩ := licensed_earlier hf steps hm
  have hthen : (first.after earlier).book.Sound := Reachable.sound ⟨first, earlier, hf, rfl⟩
  have hfresh : (first.after earlier).book.answerAfresh call = .ok text := by
    rw [Book.answerAfresh_eq_ok_iff hthen, Book.again_eq hd]
    exact Or.inl hl
  obtain ⟨hu, edition, contract, hed, hk, hw⟩ := hl
  refine ⟨earlier, later, contract, hsteps, hfresh, hk, ?_⟩
  intro contract' hc hmissing hplural hd'
  have hrepository : (first.after earlier).book.repository = now.repository :=
    (hf.reachable.repository_after earlier).trans (hf.reachable.repository_after steps).symm
  rw [hrepository] at hw
  rw [Book.answerAfresh_eq_ok_iff hnow, Book.again_eq hd']
  exact Or.inl ⟨hu, edition, contract', he.trans hed, hc, hw.of_isPlural_eq hmissing hplural⟩

/-- A text of another locale is remembered beyond a load that leaves the contract of its phrase as it was. -/
theorem answerAfresh_of_mem_memo_salut :
    let first := blank "en" {} 4 (by decide)
    let steps : List Step := [.loadTree "en" [(.text "a", .text "Hi {name}")],
      .loadTree "fr" [(.text "a", .text "Salut {name}")], .get "a" (some "fr") [(.text "name", .text "Ada")] none,
      .loadTree "en" [(.text "a", .text "Hello {name}")]]
    let now := (first.after steps).book
    ∃ call, (call, "Salut Ada") ∈ now.memo.entries ∧
      (now.answerAfresh call = .ok "Salut Ada" ↔
        now.Licenses (now.again call) "Salut Ada" ∨ "Salut Ada" = call.key ∧ now.Refuses (now.again call)) ∧
      ∃ earlier later contract, steps = earlier ++ later ∧
        (first.after earlier).book.answerAfresh call = .ok "Salut Ada" ∧
        (first.after earlier).book.contractOf (Path.resolve call.key call.scope) = .ok contract ∧
        ∀ contract', now.contractOf (Path.resolve call.key call.scope) = .ok contract' →
          contract'.missing call.values = [] → contract'.isPlural = contract.isPlural →
          (call.locale = "" → now.defaultLocale = "") → now.answerAfresh call = .ok "Salut Ada" := by
  intro first steps now
  have hm : now.memo.entries.map (·.2) = ["Salut Ada"] := by decide +kernel
  obtain ⟨⟨call, text⟩, hm, rfl⟩ := List.mem_map.1 (hm ▸ List.mem_singleton_self "Salut Ada")
  exact ⟨call, hm, answerAfresh_of_mem_memo (initial_blank "en" {} 4 (by decide)) steps hm⟩

/-- A remembered text outlives the contract that licensed it: once the representative tree asks for a name, a book that
remembers nothing refuses the call and gives the key back. -/
theorem memo_outlives_contract :
    let now := ((blank "en" {} 4 (by decide)).after [.loadTree "en" [(.text "a", .text "Hi")],
      .loadTree "fr" [(.text "a", .text "Salut")], .get "a" (some "fr") [] none,
      .loadTree "en" [(.text "a", .text "Hi {name}")]]).book
    (now.get "a" (some "fr") [] none).2.outcome.toOption = some "Salut" ∧
      ∃ call, (call, "Salut") ∈ now.memo.entries ∧ (now.answerAfresh call).toOption = some "a" := by
  intro now
  have hm : now.memo.entries.map (fun entry => (entry.2, (now.answerAfresh entry.1).toOption)) =
      [("Salut", some "a")] := by decide +kernel
  refine ⟨by decide +kernel, ?_⟩
  obtain ⟨⟨call, text⟩, hm, h⟩ := List.mem_map.1 (hm ▸ List.mem_singleton_self ("Salut", some "a"))
  obtain ⟨rfl, ha⟩ := Prod.mk.inj h
  exact ⟨call, hm, ha⟩

end Session

end Phrasebook
