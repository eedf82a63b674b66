import Phrasebook.Proofs.Book.Reachable
import Phrasebook.Proofs.Contract

/-!
# What a call is answered

A call is answered with a text, or with its key and a notice of the fault, save for one fault that is not got over.

* `Fault.kind` sorts faults, and `Fault.isCaught` says which kinds are got over.
* `isCaught_or_overflows` follows a call that cannot be written through each step of writing it: the fault is of a kind
  that is got over, or the count of a plural phrase is infinite in a locale that is known (`Overflows`).
* `Reachable.get_answers`: what a call in a session is answered, and `infinite_count_escapes`: it may be nothing.
-/

namespace Phrasebook

/-! ## Kinds of faults -/

/-- The kinds of faults. -/
inductive Fault.Kind where
  /-- nothing has the name that is looked up -/
  | name
  /-- a value is not of the type that is asked for -/
  | type
  /-- a value is of that type and will not do -/
  | value
  /-- a number is too large to be dealt with -/
  | size
  /-- a file is not what is asked for -/
  | file
  /-- nothing here reckons with it -/
  | unforeseen
  deriving DecidableEq, Repr

namespace Fault

/-- The kind of a fault. -/
def kind : Fault → Kind
  | unknownKey _ | unknownLocale _ | noLocales | missing _ _ | noVariant _ _ _ | noText _ _ | unknownCategory _ => .name
  | badValue _ _ | notANumber _ _ | noMagnitude _ | unhashable _ => .type
  | badKey _ _ | tooDeep _ _ | clash _ | tooLong _ _ _ | tooManyDigits _ | unwritable | nanCount | badCapacity
  | badWorkers => .value
  | infiniteCount => .size
  | absent _ | unsupported _ | notATable _ _ | directory _ | undecodable | malformed _ | misfit _ => .file
  | unforeseen _ => .unforeseen

/-- Whether a fault is of a kind that a call gets over. -/
def isCaught (fault : Fault) : Bool :=
  match fault.kind with
  | .name | .type | .value => true
  | .size | .file | .unforeseen => false

theorem isCaught_told {fault : Fault} (h : fault.isCaught = true) : fault.told.isCaught = true :=
  told_of (p := (·.isCaught = true)) h rfl

/-- What is of a kind that a call gets over does not escape it. -/
theorem escapes_of_isCaught {fault : Fault} (h : fault.isCaught = true) : Book.escapes fault = false := by
  cases fault <;> first | rfl | cases h

end Fault

/-! ## Steps that fail -/

/-- Whether a value is an infinity. -/
def Value.isInfinite : Value → Bool
  | .float (.infinite _) => true
  | _ => false

namespace Plural

/-- What keeps a value from having a magnitude. -/
theorem Magnitude.isCaught_or_infinite {count : Value} {fault : Fault} (h : ofCount count = .error fault) :
    fault.isCaught = true ∨ fault = .infiniteCount ∧ count.isInfinite = true := by
  unfold ofCount at h
  split at h
  · cases h
  · cases h
  · cases h
  · cases h
    exact Or.inr ⟨rfl, rfl⟩
  · cases h
    exact Or.inl rfl
  · cases h
    exact Or.inl rfl

/-- Where nothing is known of the language, what keeps a count from having a category is got over. -/
theorem isCaught_of_categoryOfOne {count : Value} {fault : Fault} (h : categoryOfOne count = .error fault) :
    fault.isCaught = true := by
  unfold categoryOfOne at h
  split at h
  · cases h
  · cases h
  · split at h
    · cases h
    · split at h <;> cases h
      rfl

variable {repository : Repository}

/-- What keeps a count from having a plural category. -/
theorem Repository.isCaught_or_infinite {count : Value} {locale : String} {fault : Fault}
    (h : repository.category count locale = .error fault) :
    fault.isCaught = true ∨
      fault = .infiniteCount ∧ count.isInfinite = true ∧ (repository.formOf? locale).isSome = true := by
  unfold category at h
  split at h
  · next form hform =>
    rcases Magnitude.isCaught_or_infinite (map_eq_error_iff.1 h) with hc | ⟨hf, hi⟩
    · exact Or.inl hc
    · exact Or.inr ⟨hf, hi, by rw [hform]; rfl⟩
  · exact Or.inl (isCaught_of_categoryOfOne h)

/-- Where the locale is known, an infinite count has no category. -/
theorem Repository.category_of_isInfinite {count : Value} {locale : String} (hi : count.isInfinite = true)
    (hr : (repository.formOf? locale).isSome = true) : repository.category count locale = .error .infiniteCount := by
  obtain ⟨form, hform⟩ := Option.isSome_iff_exists.1 hr
  unfold category
  rw [hform]
  cases count with
  | float x =>
    cases x with
    | infinite negative => rfl
    | _ => cases hi
  | _ => cases hi

end Plural

namespace Template

/-- What keeps the first clause with a number from being found is that a number has too many digits. -/
theorem exists_of_firstExact {count : Value} {fault : Fault} {clauses : List Clause}
    (h : firstExact count clauses = .error fault) : ∃ digits, fault = .tooManyDigits digits := by
  rw [firstExact_eq_find?] at h
  split at h
  · cases h
  · split at h
    · cases h
      exact ⟨_, rfl⟩
    · cases h

/-- What keeps a text from being filled is a value that cannot be written. -/
theorem kind_of_fillText {values : Table} {text : List Char} {fault : Fault}
    (h : fillText values text = .error fault) : fault.kind = .value := by
  rw [(fillText_eq_error_iff.1 h).2]
  rfl

/-- What keeps a value from being filled is not a name. -/
theorem kind_of_fill {values : Table} {value : Value} {fault : Fault} (h : fill values value = .error fault) :
    fault.kind = .type ∨ fault.kind = .value := by
  unfold fill at h
  split at h
  · split at h
    · exact Or.inr (kind_of_fillText h)
    · dsimp only at h
      split at h
      · rcases bind_eq_error_iff.1 h with h | ⟨clause, -, h⟩
        · rcases bind_eq_error_iff.1 h with h | ⟨first, -, h⟩
          · obtain ⟨digits, rfl⟩ := exists_of_firstExact h
            exact Or.inr rfl
          · cases first <;> cases h
        · cases clause with
          | some clause => exact Or.inr (kind_of_fillText h)
          | none => cases h
      · cases h
        exact Fault.told_of (p := fun fault => fault.kind = .type ∨ fault.kind = .value) (Or.inl rfl) (Or.inr rfl)
  · split at h <;> cases h
    exact Or.inr rfl

/-- What keeps the template of a value from being read is that the text is too long. -/
theorem isCaught_of_ofValue {path : String} {limit : Int} {value : Value} {fault : Fault}
    (h : ofValue path limit value = .error fault) : fault.isCaught = true := by
  unfold ofValue at h
  split at h
  · split at h <;> cases h
    exact Fault.isCaught_told rfl
  · cases h

end Template

/-- What keeps the contract of a phrase from being made. -/
theorem Contract.isCaught_of_ofKey {limit : Int} {g : Plural.Grouping} {key : String} {fault : Fault}
    (h : (Contract.ofKey limit g key).outcome = .error fault) : fault.isCaught = true := by
  unfold ofKey at h
  split at h
  · unfold ofFamily at h
    rw [Audit.outcome_bind, Audit.outcome_mapM] at h
    rcases bind_eq_error_iff.1 h with h | ⟨templates, -, h⟩
    · obtain ⟨⟨category, value⟩, -, h⟩ := exists_of_mapM_eq_error h
      rw [outcome_inspect] at h
      exact Template.isCaught_of_ofValue h
    · cases h
  · rw [Audit.outcome_bind, outcome_inspect] at h
    rcases bind_eq_error_iff.1 h with h | ⟨template, -, h⟩
    · exact Template.isCaught_of_ofValue h
    · cases h

/-- What keeps the catalog of a phrase tree from being made. -/
theorem Catalog.isCaught_of_ofTable {options : Options} {tree : Table} {entries : List Entry} {fault : Fault}
    (hl : tree.leaves options.maxDepth = .ok entries) (h : (Catalog.ofTable options tree).outcome = .error fault) :
    fault.isCaught = true := by
  have h := map_eq_error_iff.1 h
  simp only [Audit.outcome_bind, Audit.ofExcept, hl, ok_bind] at h
  rcases bind_eq_error_iff.1 h with h | ⟨g, -, h⟩
  · unfold Plural.Grouping.ofEntries at h
    dsimp only at h
    split at h <;> cases h
    rfl
  · rcases bind_eq_error_iff.1 h with h | ⟨contracts, -, h⟩
    · rw [Contract.ofGrouping, Audit.outcome_mapM] at h
      obtain ⟨key, -, h⟩ := exists_of_mapM_eq_error h
      rw [Audit.outcome_bind] at h
      rcases bind_eq_error_iff.1 h with h | ⟨contract, -, h⟩
      · exact Contract.isCaught_of_ofKey h
      · cases h
    · cases h

namespace Book

variable {b : Book}

/-- What keeps the representative tree of a sound book from having a catalog. -/
theorem isCaught_of_analysis (hs : b.Sound) {fault : Fault} (h : b.analysis = .error fault) :
    fault.isCaught = true := by
  unfold analysis at h
  split at h
  · cases h
    rfl
  · next locale tree hr =>
    have ht := treeOf_of_representative? hr
    obtain ⟨edition, he, rfl⟩ := Option.map_eq_some_iff.1 ht
    obtain ⟨entries, hl, -⟩ := hs.edition locale edition he
    exact Catalog.isCaught_of_ofTable hl h

variable {repository : Plural.Repository}

theorem isCaught_unfit (path : String) (count : Value) (locale : String) :
    (unfit path count locale).isCaught = true := Fault.isCaught_told rfl

/-- What keeps a variant from being found for a count. -/
theorem isCaught_or_of_variantIn {texts : Ordered String Value} {path locale : String} {count : Value} {fault : Fault}
    (h : variantIn repository texts path locale count = .error fault) :
    fault.isCaught = true ∨
      fault = .infiniteCount ∧ count.isInfinite = true ∧ (repository.formOf? locale).isSome = true := by
  rcases bind_eq_error_iff.1 h with h | ⟨categories, -, h⟩
  · rcases bind_eq_error_iff.1 h with h | ⟨category, -, h⟩
    · exact Plural.Repository.isCaught_or_infinite h
    · cases h
  · split at h <;> cases h
    exact Or.inl (isCaught_unfit path count locale)

/-- Under a contract that misses nothing, what keeps a path from being picked for a call. -/
theorem isCaught_or_of_pathUnder {contract : Contract} {texts : Ordered String Value} {call : Call} {fault : Fault}
    (hm : contract.missing call.values = []) (h : pathUnder repository contract texts call = .error fault) :
    fault.isCaught = true ∨ fault = .infiniteCount ∧ contract.isPlural = true ∧
      (∃ count, call.values.get? (.text countName) = some count ∧ count.isInfinite = true) ∧
      (repository.formOf? call.locale).isSome = true := by
  unfold pathUnder at h
  split at h
  · next hp =>
    obtain ⟨count, hcount, -⟩ := (Contract.missing_eq_nil_iff.1 hm).2 hp
    rw [hcount, Option.getD_some] at h
    rcases isCaught_or_of_variantIn h with hcaught | ⟨rfl, hi, hr⟩
    · exact Or.inl hcaught
    · exact Or.inr ⟨rfl, hp, ⟨count, hcount, hi⟩, hr⟩
  · cases h

/-- What keeps a call from being written under a catalog. -/
theorem isCaught_or_of_write {catalog : Catalog} {texts : Ordered String Value} {call : Call} {fault : Fault}
    (h : write repository catalog texts call = .error fault) :
    fault.isCaught = true ∨ fault = .infiniteCount ∧
      (∃ contract, catalog.contract (Path.resolve call.key call.scope) none = .ok contract ∧
        contract.isPlural = true ∧ contract.missing call.values = []) ∧
      (∃ count, call.values.get? (.text countName) = some count ∧ count.isInfinite = true) ∧
      (repository.formOf? call.locale).isSome = true := by
  rw [write_eq] at h
  rcases bind_eq_error_iff.1 h with h | ⟨contract, hk, h⟩
  · left
    unfold Catalog.contract at h
    dsimp only at h
    split at h <;> cases h
    rfl
  · split at h
    · next hm =>
      rcases bind_eq_error_iff.1 h with h | ⟨path, -, h⟩
      · rcases isCaught_or_of_pathUnder hm h with hcaught | ⟨rfl, hp, hi, hr⟩
        · exact Or.inl hcaught
        · exact Or.inr ⟨rfl, ⟨contract, hk, hp, hm⟩, hi, hr⟩
      · rcases bind_eq_error_iff.1 h with h | ⟨value, -, h⟩
        · left
          unfold textAt at h
          split at h <;> cases h
          rfl
        · left
          unfold Fault.isCaught
          rcases Template.kind_of_fill h with hk | hk <;> rw [hk]
    · cases h
      exact Or.inl rfl

/-! ## Calls that cannot be written -/

/-- A call for a plural phrase that supplies all that the contract asks for, but with an infinite count, and in a locale
that is loaded and whose plural rules are known. -/
structure Overflows (b : Book) (call : Call) : Prop where
  hashable : call.unhashable? = none
  loaded : ∃ edition, b.editions.get? call.locale = some edition
  plural : ∃ contract, b.contractOf (Path.resolve call.key call.scope) = .ok contract ∧ contract.isPlural = true ∧
    contract.missing call.values = []
  infinite : ∃ count, call.values.get? (.text countName) = some count ∧ count.isInfinite = true
  known : (b.repository.formOf? call.locale).isSome = true

/-- A call that overflows is not written, and the fault is the infinite count. -/
theorem Overflows.rendering_eq {call : Call} (h : b.Overflows call) : b.rendering call = .error .infiniteCount := by
  obtain ⟨edition, he⟩ := h.loaded
  obtain ⟨contract, hk, hp, hm⟩ := h.plural
  obtain ⟨count, hcount, hi⟩ := h.infinite
  obtain ⟨c, hc, hk⟩ := bind_eq_ok_iff.1 hk
  have hpath : pathUnder b.repository contract edition.texts call = .error .infiniteCount := by
    unfold pathUnder variantIn candidates
    rw [if_pos hp, hcount, Option.getD_some, Plural.Repository.category_of_isInfinite hi h.known]
    rfl
  simp only [rendering, h.hashable, he, hc, ok_bind, write_eq, hk, hm, if_true, hpath]
  rfl

/-- What keeps a call from being written is a fault of a kind that is got over, or the call overflows. -/
theorem isCaught_or_overflows (hs : b.Sound) {call : Call} {fault : Fault} (h : b.rendering call = .error fault) :
    fault.isCaught = true ∨ fault = .infiniteCount ∧ b.Overflows call := by
  unfold rendering at h
  split at h
  · cases h
    exact Or.inl rfl
  · next hu =>
    split at h
    · cases h
      exact Or.inl rfl
    · next edition he =>
      rcases bind_eq_error_iff.1 h with h | ⟨c, hc, h⟩
      · exact Or.inl (isCaught_of_analysis hs h)
      · rcases isCaught_or_of_write h with hcaught | ⟨rfl, ⟨contract, hk, hp, hm⟩, hi, hr⟩
        · exact Or.inl hcaught
        · exact Or.inr ⟨rfl, hu, ⟨edition, he⟩, ⟨contract, bind_eq_ok_iff.2 ⟨c, hc, hk⟩, hp, hm⟩, hi, hr⟩

end Book

/-! ## Replies -/

/-- The keys that a reply says could not be written, each with the fault. -/
def Reply.refusals {α : Type} (reply : Reply α) : List (String × Fault) :=
  reply.notices.filterMap fun
    | .untranslated key fault => some (key, fault)
    | .finding _ => none

namespace Book

variable {b : Book}

/-- What is noticed of a call when it is written so: the fault that gives the key back. -/
def refused (call : Call) : Except Fault String → List (String × Fault)
  | .ok _ => []
  | .error fault => if escapes fault then [] else [(call.key, fault)]

theorem refused_error (call : Call) {fault : Fault} (h : escapes fault = false) :
    refused call (.error fault) = [(call.key, fault)] := by
  simp [refused, h]

theorem refusals_noticesOf {α : Type} (b : Book) (findings : List Finding) (outcome : Except Fault α) :
    (Reply.mk (b.noticesOf findings) outcome).refusals = [] := by
  simp [Reply.refusals, noticesOf]

/-- A refusal is noticed after notices of findings. -/
theorem refusals_refuse {call : Call} {notices : List Notice} {fault : Fault}
    (hn : (Reply.mk notices (.error fault : Except Fault String)).refusals = []) :
    (refuse call notices fault).refusals = refused call (.error fault) := by
  by_cases he : escapes fault = true
  · rw [refuse, if_pos he, refused, if_pos he]
    exact hn
  · rw [refuse, if_neg he, refused, if_neg he]
    unfold Reply.refusals at hn ⊢
    rw [List.filterMap_append, hn]
    rfl

/-- A call that cannot be remembered is refused, whatever is remembered. -/
theorem answer_of_unhashable {call : Call} {typeName : String} (hu : call.unhashable? = some typeName) :
    (b.answer call).2 = refuse call [] (.unhashable typeName) := by
  unfold answer
  rw [hu]

/-- A call that is remembered is answered with a text that still stands, and with no notice. -/
theorem answer_of_hit (hs : b.Sound) {call : Call} (hu : call.unhashable? = none) {text : String}
    (h : b.memo.find? call.same = some text) : (b.answer call).2 = { outcome := .ok text } ∧
      ∃ call', call.same call' = true ∧ (call', text) ∈ b.memo.entries ∧ b.Stands call' text := by
  obtain ⟨call', hm, hsame⟩ := Fifo.mem_entries_of_find? h
  refine ⟨?_, call', hsame, hm, hs.memo call' text hm⟩
  unfold answer
  rw [hu, h]

/-- What is noticed of a call that is not remembered. -/
theorem refusals_of_miss (hs : b.Sound) {call : Call} (hm : b.memo.find? call.same = none) :
    (b.answer call).2.refusals = refused call (b.rendering call) := by
  unfold answer rendering
  cases hu : call.unhashable? with
  | some typeName => exact refusals_refuse rfl
  | none =>
    simp only [hm]
    cases he : b.editions.get? call.locale with
    | none => exact refusals_refuse rfl
    | some edition =>
      simp only [repository_catalog, bind_outcome_catalog hs]
      cases b.analysis >>= fun c => write b.repository c edition.texts call with
      | error fault => exact refusals_refuse (refusals_noticesOf _ _ _)
      | ok text => exact refusals_noticesOf _ _ _

/-- A fault that is noticed is the one that keeps the call from being written. -/
theorem rendering_of_mem_refusals (hs : b.Sound) {call : Call} {key : String} {fault : Fault}
    (h : (key, fault) ∈ (b.answer call).2.refusals) : key = call.key ∧ b.rendering call = .error fault := by
  have refused_of_mem : ∀ outcome : Except Fault String, (key, fault) ∈ refused call outcome →
      key = call.key ∧ outcome = .error fault := by
    intro outcome hmem
    unfold refused at hmem
    split at hmem
    · cases hmem
    · split at hmem
      · cases hmem
      · cases List.mem_singleton.1 hmem
        exact ⟨rfl, rfl⟩
  cases hu : call.unhashable? with
  | some typeName =>
    rw [answer_of_unhashable hu, refusals_refuse rfl] at h
    have hrendering : b.rendering call = .error (.unhashable typeName) := by rw [rendering, hu]
    rw [hrendering]
    exact refused_of_mem _ h
  | none =>
    cases hm : b.memo.find? call.same with
    | some text =>
      rw [(answer_of_hit hs hu hm).1] at h
      cases h
    | none =>
      rw [refusals_of_miss hs hm] at h
      exact refused_of_mem _ h

/-- A call that overflows is not answered unless it is remembered. -/
theorem Overflows.outcome_eq (hs : b.Sound) {call : Call} (hm : b.memo.find? call.same = none)
    (h : b.Overflows call) : (b.answer call).2.outcome = .error .infiniteCount := by
  rw [(answer_of_miss hs hm).1, h.rendering_eq]
  exact answered_error_of_escapes call rfl

/-- A call is answered with a text and no notice of a fault: one that is written for it, or a remembered one that still
stands. -/
structure AnswersText (b : Book) (call : Call) (reply : Reply String) (text : String) : Prop where
  outcome : reply.outcome = .ok text
  refusals : reply.refusals = []
  text : b.Licenses call text ∨
    ∃ call', call.same call' = true ∧ (call', text) ∈ b.memo.entries ∧ b.Stands call' text

/-- A call is answered with its key, and one notice tells the fault that keeps it from being written. -/
structure AnswersKey (b : Book) (call : Call) (reply : Reply String) (fault : Fault) : Prop where
  outcome : reply.outcome = .ok call.key
  refusals : reply.refusals = [(call.key, fault)]
  caught : fault.isCaught = true
  fault : b.rendering call = .error fault

/-- A call that cannot be remembered is answered with its key. -/
theorem answersKey_of_unhashable {call : Call} {typeName : String} (hu : call.unhashable? = some typeName) :
    b.AnswersKey call (b.answer call).2 (.unhashable typeName) := by
  refine ⟨?_, ?_, rfl, ?_⟩
  · rw [answer_of_unhashable hu]
    rfl
  · rw [answer_of_unhashable hu]
    rfl
  · unfold rendering
    rw [hu]

/-- A call that is not remembered and does not overflow is answered with the text that is written, or with its key. -/
theorem answers_of_miss (hs : b.Sound) {call : Call} (hm : b.memo.find? call.same = none) (ho : ¬ b.Overflows call) :
    (∃ text, b.AnswersText call (b.answer call).2 text) ∨ ∃ fault, b.AnswersKey call (b.answer call).2 fault := by
  have houtcome := (answer_of_miss hs hm).1
  have hrefusals := refusals_of_miss hs hm
  cases hr : b.rendering call with
  | ok text =>
    rw [hr] at houtcome hrefusals
    exact Or.inl ⟨text, houtcome, hrefusals, Or.inl (rendering_eq_ok_iff.1 hr)⟩
  | error fault =>
    rcases isCaught_or_overflows hs hr with hcaught | ⟨-, hover⟩
    · have he := Fault.escapes_of_isCaught hcaught
      rw [hr, answered_error call he] at houtcome
      rw [hr, refused_error call he] at hrefusals
      exact Or.inr ⟨fault, houtcome, hrefusals, hcaught, hr⟩
    · exact absurd hover ho

end Book

namespace Session

/-- **What a call is answered.** In every session, a call that is not remembered and overflows is answered nothing: the
fault escapes. Every other call is answered with a text, or else with its key and a notice. -/
theorem Reachable.get_answers {s : Session} (hs : s.Reachable) (key : String) (locale : Option String) (values : Table)
    (scope : Option String) :
    let call := s.book.callOf key locale values scope
    let reply := (s.book.get key locale values scope).2
    call.key = key ∧
      (s.book.memo.find? call.same = none ∧ s.book.Overflows call → reply.outcome = .error .infiniteCount) ∧
      (¬ (s.book.memo.find? call.same = none ∧ s.book.Overflows call) →
        (∃ text, s.book.AnswersText call reply text) ∨ ∃ fault, s.book.AnswersKey call reply fault) := by
  intro call reply
  have hb := hs.sound
  refine ⟨rfl, ?_, ?_⟩
  · rintro ⟨hm, ho⟩
    exact ho.outcome_eq hb hm
  · intro hno
    cases hu : call.unhashable? with
    | some typeName => exact Or.inr ⟨_, Book.answersKey_of_unhashable hu⟩
    | none =>
      cases hm : s.book.memo.find? call.same with
      | none => exact Book.answers_of_miss hb hm fun ho => hno ⟨hm, ho⟩
      | some text =>
        obtain ⟨hreply, hold⟩ := Book.answer_of_hit hb hu hm
        have hreply : reply = { outcome := .ok text } := hreply
        exact Or.inl ⟨text, by rw [hreply], by rw [hreply]; rfl, Or.inr hold⟩

/-- What is not a number is no count in a locale that is known: the key is given back. -/
theorem get_answers_nan :
    let s := (blank "en" {} 4 (by decide)).after
      [.loadTree "en" [(.text "cat#one", .text "{count} cat"), (.text "cat#other", .text "{count} cats")]]
    let values : Table := [(.text "count", .float .nan)]
    let call := s.book.callOf "cat" none values none
    s.Reachable ∧ ¬ (s.book.memo.find? call.same = none ∧ s.book.Overflows call) ∧
      ∃ fault, s.book.AnswersKey call (s.book.get "cat" none values none).2 fault := by
  intro s values call
  have hs : s.Reachable := ⟨_, _, initial_blank "en" {} 4 (by decide), rfl⟩
  have hcount : call.values.get? (.text countName) = some (.float .nan) := by rfl
  have hno : ¬ (s.book.memo.find? call.same = none ∧ s.book.Overflows call) := by
    rintro ⟨-, ho⟩
    obtain ⟨count, hc, hi⟩ := ho.infinite
    rw [hcount] at hc
    cases hc
    cases hi
  refine ⟨hs, hno, ?_⟩
  rcases (hs.get_answers "cat" none values none).2.2 hno with ⟨text, ht⟩ | hkey
  · have hnoticed : (s.book.get "cat" none values none).2.refusals.length = 1 := by decide +kernel
    rw [ht.refusals] at hnoticed
    cases hnoticed
  · exact hkey

/-- An infinite count is a number and nothing is missing, but the call is answered nothing. -/
theorem infinite_count_escapes :
    let s := (blank "en" {} 4 (by decide)).after
      [.loadTree "en" [(.text "cat#one", .text "{count} cat"), (.text "cat#other", .text "{count} cats")]]
    let count : Value := .float (.infinite false)
    s.Reachable ∧ count.isNumber = true ∧
      (s.book.get "cat" none [(.text "count", count)] none).2.outcome = .error .infiniteCount := by
  intro s count
  have hs : s.Reachable := ⟨_, _, initial_blank "en" {} 4 (by decide), rfl⟩
  have ho : s.book.Overflows (s.book.callOf "cat" none [(.text "count", count)] none) := by
    have hplural : ((s.book.contractOf "cat").toOption.map fun contract =>
        (contract.isPlural, contract.missing [(.text "count", count)])) = some (true, []) := by decide +kernel
    refine ⟨rfl, Option.isSome_iff_exists.1 (by decide +kernel), ?_, ⟨count, rfl, rfl⟩, by decide +kernel⟩
    show ∃ contract, s.book.contractOf "cat" = .ok contract ∧ _
    cases hc : s.book.contractOf "cat" with
    | error fault => simp [hc, Except.toOption] at hplural
    | ok contract =>
      simp only [hc, Except.toOption, Option.map_some, Option.some.injEq, Prod.mk.injEq] at hplural
      exact ⟨contract, rfl, hplural.1, hplural.2⟩
  exact ⟨hs, rfl, ho.outcome_eq hs.sound rfl⟩

end Session

end Phrasebook
