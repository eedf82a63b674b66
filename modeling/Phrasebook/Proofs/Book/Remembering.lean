import Phrasebook.Proofs.Book.Answering
import Phrasebook.Proofs.Book.Interrupted

/-!
# How the memory of a phrase book changes

The memory of a phrase book keeps the texts that have been written last, up to a number of them. Only a call that is
written adds to it, and only loads and lack of room take from it.

* `Book.Settles` tells the ways in which a call can end and what each of them does to the memory; there are no others
  (`Book.Sound.settles`).
* `Book.frame_loadAll`: loads take the texts of their locales, in whatever place they stand.
* `Session.entries_run` is what a step does to the memory, and `Session.sublist_writings` what a run has left in it.
* `Session.memory_bounded`: all this holds in every session.
-/

namespace Phrasebook

/-! ## Calls -/

namespace Book

variable {b : Book} {call : Call}

/-- The text that is remembered for a call. A call that cannot be remembered is not looked up. -/
def recalled? (b : Book) (call : Call) : Option String :=
  match call.unhashable? with
  | some _ => none
  | none => b.memo.find? call.same

theorem recalled?_of_hashable (hu : call.unhashable? = none) : b.recalled? call = b.memo.find? call.same := by
  rw [recalled?, hu]

/-- A call that is remembered changes nothing. -/
theorem answer_of_recalled {text : String} (h : b.recalled? call = some text) :
    b.answer call = (b, { outcome := .ok text }) := by
  unfold answer
  cases hu : call.unhashable? with
  | some typeName =>
    rw [recalled?, hu] at h
    cases h
  | none =>
    rw [recalled?_of_hashable hu] at h
    rw [h]

/-- The memory after a call has been written so. -/
def remember (memo : Fifo Call String) (call : Call) : Except Fault String → Fifo Call String
  | .ok text => memo.insert call text
  | .error _ => memo

/-- A call that is not remembered is written, and only the text that is written comes into the memory. -/
theorem memo_answer_of_not_recalled (hs : b.Sound) (h : b.recalled? call = none) :
    (b.answer call).1.memo = remember b.memo call (b.rendering call) := by
  unfold answer rendering
  cases hu : call.unhashable? with
  | some typeName => rfl
  | none =>
    rw [recalled?_of_hashable hu] at h
    simp only [h]
    cases he : b.editions.get? call.locale with
    | none => rfl
    | some edition =>
      simp only [repository_catalog, bind_outcome_catalog hs]
      cases b.analysis >>= fun c => write b.repository c edition.texts call with
      | error fault => exact memo_catalog b
      | ok text => rw [memo_catalog]; rfl

/-- What a call that is not remembered is answered. -/
theorem reply_of_not_recalled (hs : b.Sound) (h : b.recalled? call = none) :
    (b.answer call).2.outcome = answered call (b.rendering call) ∧
      (b.answer call).2.refusals = refused call (b.rendering call) := by
  cases hu : call.unhashable? with
  | some typeName =>
    have hrendering : b.rendering call = .error (.unhashable typeName) := by rw [rendering, hu]
    rw [answer_of_unhashable hu, hrendering]
    exact ⟨outcome_refuse _ _ _, refusals_refuse rfl⟩
  | none =>
    rw [recalled?_of_hashable hu] at h
    exact ⟨(answer_of_miss hs h).1, refusals_of_miss hs h⟩

/-- How a call ends, and what that does to a memory with room for `capacity` texts. -/
inductive Settles (b : Book) (capacity : Nat) (call : Call) : Prop
  /-- its text is remembered -/
  | recalled (text : String) : b.recalled? call = some text → b.answer call = (b, { outcome := .ok text }) →
      Settles b capacity call
  /-- it cannot be written, and its key is given back -/
  | returned (fault : Fault) : b.recalled? call = none → b.rendering call = .error fault →
      (b.answer call).2.outcome = .ok call.key → (b.answer call).2.refusals = [(call.key, fault)] →
      (b.answer call).1.memo = b.memo → Settles b capacity call
  /-- it cannot be written, and nothing is answered -/
  | escaped (fault : Fault) : b.recalled? call = none → b.rendering call = .error fault →
      (b.answer call).2.outcome = .error fault → (b.answer call).2.refusals = [] →
      (b.answer call).1.memo = b.memo → Settles b capacity call
  /-- it is written, and the text is remembered as the latest one -/
  | written (text : String) : b.recalled? call = none → b.rendering call = .ok text →
      (b.answer call).2.outcome = .ok text → (b.answer call).2.refusals = [] →
      (b.answer call).1.memo.entries = (if b.memo.entries.length = capacity
        then b.memo.entries.drop (max 1 (capacity / 4)) else b.memo.entries) ++ [(call, text)] →
      Settles b capacity call

/-- A call of a sound book ends in one of these ways. -/
theorem Sound.settles (hs : b.Sound) (call : Call) : b.Settles b.memo.capacity call := by
  cases hr : b.recalled? call with
  | some text => exact .recalled text hr (answer_of_recalled hr)
  | none =>
    obtain ⟨houtcome, hrefusals⟩ := reply_of_not_recalled hs hr
    have hmemo := memo_answer_of_not_recalled hs hr
    cases hw : b.rendering call with
    | ok text =>
      rw [hw] at houtcome hrefusals hmemo
      refine .written text hr hw houtcome hrefusals ?_
      rw [hmemo, ← Fifo.makeRoom_eq]
      rfl
    | error fault =>
      rw [hw] at houtcome hrefusals hmemo
      cases he : escapes fault with
      | true =>
        rw [answered_error_of_escapes call he] at houtcome
        rw [refused, if_pos he] at hrefusals
        exact .escaped fault hr hw houtcome hrefusals hmemo
      | false =>
        rw [answered_error call he] at houtcome
        rw [refused_error call he] at hrefusals
        exact .returned fault hr hw houtcome hrefusals hmemo

/-! ## Loads -/

/-- Loads do not change how many texts there is room for. -/
theorem Loaded.capacity_memo {b' : Book} (h : b.Loaded b') : b'.memo.capacity = b.memo.capacity := by
  induction h with
  | refl => rfl
  | tail _ h ih =>
    obtain ⟨locale, tree, h⟩ := h
    obtain ⟨edition, -, -, rfl⟩ := load_eq_ok h
    exact ih

/-- Loading some trees up to the first that cannot be loaded touches the locales of those that were loaded. -/
theorem frame_loadAll (trees : List (String × Table)) : ∀ b : Book,
    Frame ((b.loadsOfAll trees).map Load.locale) b (b.loadAll trees).1 := by
  induction trees with
  | nil => exact Frame.refl
  | cons item trees ih =>
    intro b
    obtain ⟨locale, tree⟩ := item
    unfold loadsOfAll loadAll
    cases h : b.load locale tree with
    | error fault => exact Frame.refl b
    | ok b' => exact (Frame.load h).trans (ih b')

end Book

/-! ## Steps -/

namespace Session

variable {s : Session}

/-- What a step writes: a call that is not remembered, if it can be written, and its text. -/
def writing? (s : Session) : Step → Option (Call × String)
  | .get key locale values scope =>
    let call := s.book.callOf key locale values scope
    match s.book.recalled? call, s.book.rendering call with
    | none, .ok text => some (call, text)
    | _, _ => none
  | _ => none

/-- What is written in a run, the first text first. -/
def writings (s : Session) : List Step → List (Call × String)
  | [] => []
  | step :: steps => (s.writing? step).toList ++ writings (s.run step).1 steps

theorem writing?_of_asks {step : Step} (h : step.asks = false) : s.writing? step = none := by
  cases step with
  | get _ _ _ _ => cases h
  | _ => rfl

/-- **What a step does to the memory.** What it writes is remembered as the latest text, for which room has been made.
Without that it takes the texts of the locales that it loads. -/
theorem entries_run (hs : s.book.Sound) (step : Step) : (s.run step).1.book.memo.entries =
    match s.writing? step with
    | some entry => s.book.memo.makeRoom ++ [entry]
    | none => s.book.memo.entries.filter fun entry => entry.1.locale ∉ (s.loadsOf step).map Load.locale := by
  have hall : ∀ step, s.loadsOf step = [] → s.book.memo.entries.filter (fun entry =>
      entry.1.locale ∉ (s.loadsOf step).map Load.locale) = s.book.memo.entries := by
    intro step h
    rw [h]
    exact List.filter_eq_self.2 (by simp)
  rcases s.run_cases step with ⟨hasks, trees, hloads, hbook, -⟩ | ⟨key, locale, values, scope, rfl⟩ | rfl |
    ⟨locale, rfl⟩
  · rw [writing?_of_asks hasks, hloads, hbook]
    exact (Book.frame_loadAll _ _).memo
  · show (s.book.answer (s.book.callOf key locale values scope)).1.memo.entries = _
    rw [hall _ rfl, writing?]
    cases hr : s.book.recalled? (s.book.callOf key locale values scope) with
    | some text => rw [Book.answer_of_recalled hr]
    | none =>
      rw [Book.memo_answer_of_not_recalled hs hr]
      cases s.book.rendering (s.book.callOf key locale values scope) <;> rfl
  · show s.book.catalog.1.memo.entries = _
    rw [Book.memo_catalog]
    exact (hall .catalog rfl).symm
  · exact (hall (.setDefault locale) rfl).symm

/-- Steps do not change how many texts there is room for. -/
theorem capacity_run (hs : s.book.Sound) (step : Step) :
    (s.run step).1.book.memo.capacity = s.book.memo.capacity := by
  rcases book_run s step with h | ⟨key, locale, values, scope, h⟩ | h | ⟨locale, h⟩
  · exact h.capacity_memo
  · rw [h]
    rcases Book.answer_fst hs (s.book.callOf key locale values scope) with h | h | ⟨text, -, h⟩
    · rw [h]
    · rw [h, Book.memo_catalog]
    · rw [h]
      rfl
  · rw [h, Book.memo_catalog]
  · rw [h]
    rfl

/-- What the loading of one tree takes: exactly the texts of its locale, or nothing if it fails. -/
inductive Takes (s : Session) (loading : Loading) : Prop
  | loaded : (s.run loading.step).2.outcome = .ok .done → (s.run loading.step).1.book.memo.entries =
      s.book.memo.entries.filter (fun entry => entry.1.locale ≠ loading.locale) → Takes s loading
  | failed (fault : Fault) : (s.run loading.step).2.outcome = .error fault →
      (s.run loading.step).1.book.memo = s.book.memo → Takes s loading

theorem takes (s : Session) (loading : Loading) : s.Takes loading := by
  have settled : ∀ outcome : Except Fault Book, s.run loading.step = s.settle outcome →
      (∀ b, outcome = .ok b → Book.Frame [loading.locale] s.book b) → s.Takes loading := by
    intro outcome hrun hframe
    cases outcome with
    | error fault => exact .failed fault (by rw [hrun]; rfl) (by rw [hrun]; rfl)
    | ok b =>
      refine .loaded (by rw [hrun]; rfl) ?_
      rw [hrun]
      exact (hframe b rfl).memo.trans (List.filter_congr fun entry _ => by simp)
  cases loading with
  | tree locale tree => exact settled _ rfl fun b h => Book.Frame.load h
  | file source =>
    refine settled _ rfl fun b h => ?_
    obtain ⟨tree, -, h⟩ := bind_eq_ok_iff.1 h
    exact Book.Frame.load h

/-- When some files are loaded in bulk, exactly the texts of their locales are taken. -/
theorem entries_loadFiles_of_ok {sources : List Source} (h : (s.run (.loadFiles sources)).2.outcome = .ok .done) :
    (s.run (.loadFiles sources)).1.book.memo.entries =
      s.book.memo.entries.filter fun entry => entry.1.locale ∉ sources.map Source.locale := by
  have houtcome : (s.book.loadFiles s.folder none sources).2 = .ok () := by
    obtain ⟨done, hdone, -⟩ := map_eq_ok_iff.1 h
    exact hdone
  show (s.book.loadFiles s.folder none sources).1.memo.entries = _
  unfold Book.loadFiles at houtcome ⊢
  cases hread : s.folder.readAll none sources with
  | error fault =>
    rw [hread] at houtcome
    cases houtcome
  | ok trees =>
    rw [hread] at houtcome
    obtain ⟨b', hb'⟩ := Book.loadAll_snd_eq_ok_iff.1 houtcome
    obtain ⟨-, -, rfl⟩ := Folder.readAll_eq_ok_iff.1 hread
    have hlocales : ∀ locale, locale ∈ (s.folder.treesOf (lastOfEach sources)).map (·.1) ↔
        locale ∈ sources.map Source.locale := by
      intro locale
      rw [Folder.treesOf_lastOfEach, ← mem_keys_byLocale, ← Ordered.keys_mapValues s.folder.treeOf]
      rfl
    simp only [Book.loadAll_eq_of_loadTrees hb', (Book.frame_loadTrees hb').memo, hlocales]

/-- A step that neither asks for a text nor loads anything. -/
def Step.isIdle : Step → Bool
  | .write _ _ | .setDefault _ | .defaultLocale | .locales | .catalog => true
  | .get _ _ _ _ | .loadTree _ _ | .loadFile _ | .loadFiles _ => false

/-- A step that neither asks for a text nor loads anything leaves the memory alone. -/
theorem memo_run_of_isIdle (s : Session) {step : Step} (h : step.isIdle = true) :
    (s.run step).1.book.memo = s.book.memo := by
  cases step with
  | get _ _ _ _ | loadTree _ _ | loadFile _ | loadFiles _ => cases h
  | write _ _ | setDefault _ | defaultLocale | locales => rfl
  | catalog => exact Book.memo_catalog _

/-! ## Runs -/

/-- What is remembered after a run was remembered before it or has been written in it, in this order. -/
theorem sublist_writings (hs : s.Reachable) (steps : List Step) :
    (s.after steps).book.memo.entries.Sublist (s.book.memo.entries ++ s.writings steps) := by
  induction steps generalizing s with
  | nil => exact List.sublist_append_left _ _
  | cons step steps ih =>
    have hstep : (s.run step).1.book.memo.entries.Sublist (s.book.memo.entries ++ (s.writing? step).toList) := by
      rw [entries_run hs.sound]
      cases s.writing? step with
      | some entry => exact s.book.memo.makeRoom_suffix.sublist.append (List.Sublist.refl _)
      | none => exact List.filter_sublist.trans (List.sublist_append_left _ _)
    have hrest := ih (s := (s.run step).1) (hs.after [step])
    rw [writings, ← List.append_assoc]
    exact hrest.trans (hstep.append (List.Sublist.refl _))

theorem capacity_after (hs : s.Reachable) (steps : List Step) :
    (s.after steps).book.memo.capacity = s.book.memo.capacity := by
  induction steps using List.reverseRecOn with
  | nil => rfl
  | append_singleton steps step ih => rw [after_concat, capacity_run (hs.after steps).sound, ih]

/-- At first nothing is remembered, whatever a book begins with. -/
theorem memo_start {folder : Folder} {defaultLocale : String} {options : Options} {capacity : Int} {opening : Opening}
    {repository : Plural.Repository} {first : Session}
    (h : start folder defaultLocale options capacity opening repository = .ok first) :
    first.book.memo.capacity = capacity.toNat ∧ first.book.memo.entries = [] := by
  obtain ⟨empty, hempty, rfl⟩ := start_eq_ok h
  have hr : empty.Reachable := Initial.reachable ⟨_, _, _, _, _, _, hempty⟩
  obtain ⟨b, hb, hempty⟩ := bind_eq_ok_iff.1 hempty
  cases hempty
  obtain ⟨_, rfl⟩ := Book.ofCapacity_eq_ok hb
  refine ⟨capacity_after hr _, List.sublist_nil.1 ?_⟩
  have hwritten := sublist_writings hr (opening.steps defaultLocale)
  cases opening <;> exact hwritten

/-- A memory with room for `capacity` texts, and what each step does to it. A call changes it only if it is written
(`get`), a load takes the texts of its locale and no others (`load`, `loadFiles`), and all other steps leave it alone,
the change of the default locale among them (`idle`). -/
structure Memory (s : Session) (capacity : Nat) : Prop where
  bound : s.book.memo.entries.length ≤ capacity
  get : ∀ key locale values scope,
    (s.run (.get key locale values scope)).1.book = (s.book.answer (s.book.callOf key locale values scope)).1 ∧
      s.book.Settles capacity (s.book.callOf key locale values scope)
  load : ∀ loading, s.Takes loading
  loadFiles : ∀ sources,
    (s.run (.loadFiles sources)).1.book.memo.entries = s.book.memo.entries.filter (fun entry =>
        entry.1.locale ∉ (s.loadsOf (.loadFiles sources)).map Load.locale) ∧
      ((s.run (.loadFiles sources)).2.outcome = .ok .done → (s.run (.loadFiles sources)).1.book.memo.entries =
        s.book.memo.entries.filter fun entry => entry.1.locale ∉ sources.map Source.locale)
  idle : ∀ step, step.isIdle = true → (s.run step).1.book.memo = s.book.memo

theorem Reachable.memory (hs : s.Reachable) : s.Memory s.book.memo.capacity where
  bound := s.book.memo.size_le
  get _ _ _ _ := ⟨rfl, hs.sound.settles _⟩
  load := s.takes
  loadFiles sources := ⟨entries_run hs.sound (.loadFiles sources), entries_loadFiles_of_ok⟩
  idle _ := s.memo_run_of_isIdle

/-- **The memory of a book is bounded, and only calls that are written add to it.** A book can be begun with room for
any number of texts but none. In every session there are never more texts in it than that, they are some of those that
have been written, oldest first, and each step changes it as `Memory` tells. -/
theorem memory_bounded (folder : Folder) (defaultLocale : String) (options : Options)
    (repository : Plural.Repository) {capacity : Nat} (hcapacity : 1 ≤ capacity) :
    (∃ empty, start folder defaultLocale options capacity .nothing repository = .ok empty) ∧
      ∀ opening first, start folder defaultLocale options capacity opening repository = .ok first → ∀ steps,
        (first.after steps).Memory capacity ∧
          (first.after steps).book.memo.entries.Sublist (first.writings steps) := by
  constructor
  · have hroom : 0 < (capacity : Int).toNat := by omega
    rw [start, Book.ofCapacity, Fifo.ofCapacity, dif_pos hroom]
    exact ⟨_, rfl⟩
  · intro opening first h steps
    have hfirst : first.Reachable := Initial.reachable ⟨_, _, _, _, _, _, h⟩
    obtain ⟨hroom, hempty⟩ := memo_start h
    have hcapacity : (first.after steps).book.memo.capacity = capacity := by
      rw [capacity_after hfirst, hroom, Int.toNat_natCast]
    have hmemory := (hfirst.after steps).memory
    have hwritten := sublist_writings hfirst steps
    rw [hcapacity] at hmemory
    rw [hempty, List.nil_append] at hwritten
    exact ⟨hmemory, hwritten⟩

/-- With room for eight texts, the ninth makes the two oldest go. -/
theorem memory_bounded_nine :
    let first := blank "en" {} 8 (by decide)
    let ask (n : Int) : Step := .get "a" none [(.text "n", .int n)] none
    let steps : List Step := .loadTree "en" [(.text "a", .text "no. {n}")] :: [1, 2, 3, 4, 5, 6, 7, 8, 9].map ask
    1 ≤ 8 ∧ start {} "en" {} (8 : Nat) .nothing = .ok first ∧ (first.writings steps).length = 9 ∧
      (first.after steps).book.memo.entries.map (·.2) =
        ["no. 3", "no. 4", "no. 5", "no. 6", "no. 7", "no. 8", "no. 9"] ∧
      (first.after steps).Memory 8 ∧ (first.after steps).book.memo.entries.Sublist (first.writings steps) := by
  intro first ask steps
  have hroom : 1 ≤ 8 := by decide
  have hstart := start_blank "en" {} 8 (by decide)
  exact ⟨hroom, hstart, by decide +kernel, by decide +kernel,
    (memory_bounded {} "en" {} .standard hroom).2 .nothing first hstart steps⟩

end Session

end Phrasebook
