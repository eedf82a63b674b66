import Phrasebook.Book.Session
import Phrasebook.Proofs.Book.Sound
import Mathlib.Data.List.Induction
import Mathlib.Logic.Relation

/-!
# Reachable sessions

* `book_run` is all that a step can do to the book of a session: some loads, a call, a catalog or another default
  locale.
* `Reachable.induct`: what these keep holds in every session that has begun with a new book.
* `Reachable.sound`: the book of a session is sound.
* `Reachable.repository_after`: a session keeps its repository.
-/

namespace Phrasebook

namespace Book

/-- A book after some loads one after the other. -/
def Loaded : Book → Book → Prop := Relation.ReflTransGen fun b b' => ∃ locale tree, b.load locale tree = .ok b'

theorem loaded_of_load {b b' : Book} {locale : String} {tree : Table} (h : b.load locale tree = .ok b') :
    b.Loaded b' := Relation.ReflTransGen.single ⟨locale, tree, h⟩

/-- Loads leave the repository alone. -/
theorem Loaded.repository_eq {b b' : Book} (h : b.Loaded b') : b'.repository = b.repository := by
  induction h with
  | refl => rfl
  | tail _ h ih =>
    obtain ⟨locale, tree, h⟩ := h
    exact (repository_load h).trans ih

/-- Loading some trees up to the first that cannot be loaded is some loads. -/
theorem loaded_loadAll (trees : List (String × Table)) : ∀ b : Book, b.Loaded (b.loadAll trees).1 := by
  induction trees with
  | nil => exact fun b => Relation.ReflTransGen.refl
  | cons item trees ih =>
    intro b
    obtain ⟨locale, tree⟩ := item
    unfold loadAll
    split
    · next b' h => exact (loaded_of_load h).trans (ih b')
    · exact Relation.ReflTransGen.refl

/-- The call that is asked for has an empty locale only if the default locale is empty. -/
theorem defaultLocale_of_callOf {b : Book} {key : String} {locale scope : Option String} {values : Table}
    (h : (b.callOf key locale values scope).locale = "") : b.defaultLocale = "" := by
  unfold callOf at h
  cases locale with
  | none => exact h
  | some locale =>
    by_cases hl : locale = ""
    · simpa [hl] using h
    · exact absurd h (by simp [hl])

end Book

namespace Session

/-- A session that has just begun. -/
def Initial (s : Session) : Prop :=
  ∃ folder defaultLocale options capacity opening repository,
    start folder defaultLocale options capacity opening repository = .ok s

/-- A session that some steps have led to. -/
def Reachable (s : Session) : Prop := ∃ first steps, Initial first ∧ s = first.after steps

/-- A session with an empty book and an empty folder. -/
def blank (defaultLocale : String) (options : Options) (capacity : Nat) (h : 0 < capacity) : Session :=
  { book := { defaultLocale, memo := Fifo.empty capacity h
              shelf := { options, held := Fifo.empty Book.shelfCapacity (Nat.succ_pos 127) } } }

theorem start_blank (defaultLocale : String) (options : Options) (capacity : Nat) (h : 0 < capacity) :
    start {} defaultLocale options capacity .nothing = .ok (blank defaultLocale options capacity h) := by
  simp [start, Book.ofCapacity, Fifo.ofCapacity, h, blank, Except.map, bind, Except.bind, pure, Except.pure]

theorem initial_blank (defaultLocale : String) (options : Options) (capacity : Nat) (h : 0 < capacity) :
    (blank defaultLocale options capacity h).Initial :=
  ⟨{}, defaultLocale, options, capacity, .nothing, .standard, start_blank defaultLocale options capacity h⟩

@[simp] theorem after_nil (s : Session) : s.after [] = s := rfl

theorem after_append (s : Session) (steps steps' : List Step) :
    s.after (steps ++ steps') = (s.after steps).after steps' := List.foldl_append ..

theorem after_concat (s : Session) (steps : List Step) (step : Step) :
    s.after (steps ++ [step]) = ((s.after steps).run step).1 := by
  rw [after_append]
  rfl

/-- What some steps lead to from a reachable session is reachable. -/
theorem Reachable.after {s : Session} (hs : s.Reachable) (steps : List Step) : (s.after steps).Reachable := by
  obtain ⟨first, earlier, hf, rfl⟩ := hs
  exact ⟨first, earlier ++ steps, hf, (after_append first earlier steps).symm⟩

/-- A session that has just begun has a new book, into which something may have been loaded. -/
theorem Initial.book {s : Session} (h : s.Initial) :
    ∃ defaultLocale options capacity repository b,
      Book.ofCapacity defaultLocale options capacity repository = .ok b ∧ b.Loaded s.book := by
  obtain ⟨folder, defaultLocale, options, capacity, opening, repository, h⟩ := h
  obtain ⟨b, hb, h⟩ := bind_eq_ok_iff.1 h
  refine ⟨defaultLocale, options, capacity, repository, b, hb, ?_⟩
  cases opening with
  | nothing =>
    cases h
    exact Relation.ReflTransGen.refl
  | tree tree =>
    obtain ⟨b', hl, h⟩ := bind_eq_ok_iff.1 h
    cases h
    exact Book.loaded_of_load hl
  | file path =>
    obtain ⟨b', hl, h⟩ := bind_eq_ok_iff.1 h
    cases h
    obtain ⟨tree, -, hl⟩ := bind_eq_ok_iff.1 hl
    exact Book.loaded_of_load hl

/-- All that a step can do to the book. -/
theorem book_run (s : Session) (step : Step) :
    s.book.Loaded (s.run step).1.book ∨
      (∃ key locale values scope, (s.run step).1.book = (s.book.answer (s.book.callOf key locale values scope)).1) ∨
      (s.run step).1.book = s.book.catalog.1 ∨ ∃ locale, (s.run step).1.book = s.book.withDefault locale := by
  have settled : ∀ outcome : Except Fault Book, (∀ b, outcome = .ok b → s.book.Loaded b) →
      s.book.Loaded (s.settle outcome).1.book := by
    intro outcome h
    cases outcome with
    | ok b => exact h b rfl
    | error fault => exact Relation.ReflTransGen.refl
  cases step with
  | get key locale values scope => exact Or.inr (Or.inl ⟨key, locale, values, scope, rfl⟩)
  | loadTree locale tree => exact Or.inl (settled _ fun b h => Book.loaded_of_load h)
  | loadFile source =>
    refine Or.inl (settled _ fun b h => ?_)
    obtain ⟨tree, -, h⟩ := bind_eq_ok_iff.1 h
    exact Book.loaded_of_load h
  | loadFiles sources =>
    left
    show s.book.Loaded (s.book.loadFiles s.folder none sources).1
    unfold Book.loadFiles
    split
    · exact Book.loaded_loadAll _ _
    · exact Relation.ReflTransGen.refl
  | write path node => exact Or.inl Relation.ReflTransGen.refl
  | setDefault locale => exact Or.inr (Or.inr (Or.inr ⟨locale, rfl⟩))
  | defaultLocale => exact Or.inl Relation.ReflTransGen.refl
  | locales => exact Or.inl Relation.ReflTransGen.refl
  | catalog => exact Or.inr (Or.inr (Or.inl rfl))

/-- What holds of an empty book and is kept by loads, calls, catalogs and changes of the default locale holds of the
book of every session. -/
theorem Reachable.induct {P : Book → Prop}
    (empty : ∀ defaultLocale options capacity repository b,
      Book.ofCapacity defaultLocale options capacity repository = .ok b → P b)
    (load : ∀ b b' locale tree, P b → b.load locale tree = .ok b' → P b')
    (answer : ∀ b call, P b → P (b.answer call).1)
    (catalog : ∀ b, P b → P b.catalog.1)
    (withDefault : ∀ b locale, P b → P (b.withDefault locale)) {s : Session} (hs : s.Reachable) : P s.book := by
  have loaded : ∀ {b b' : Book}, b.Loaded b' → P b → P b' := by
    intro b b' h hb
    induction h with
    | refl => exact hb
    | tail _ h ih =>
      obtain ⟨locale, tree, h⟩ := h
      exact load _ _ locale tree ih h
  obtain ⟨first, steps, hf, rfl⟩ := hs
  induction steps using List.reverseRecOn with
  | nil =>
    obtain ⟨_, _, _, _, b, hb, hl⟩ := hf.book
    exact loaded hl (empty _ _ _ _ b hb)
  | append_singleton steps step ih =>
    rw [after_concat]
    rcases book_run (first.after steps) step with h | ⟨key, locale, values, scope, h⟩ | h | ⟨locale, h⟩
    · exact loaded h ih
    · rw [h]
      exact answer _ _ ih
    · rw [h]
      exact catalog _ ih
    · rw [h]
      exact withDefault _ locale ih

/-- The book of a session is sound. -/
theorem Reachable.sound {s : Session} (hs : s.Reachable) : s.book.Sound :=
  hs.induct (fun _ _ _ _ _ => Book.sound_of_ofCapacity) (fun _ _ _ _ h => h.load) (fun _ call h => h.answer call)
    (fun _ h => h.catalog) (fun _ locale h => h.withDefault locale)

/-- A session keeps the repository that it has begun with. -/
theorem Reachable.repository_after {s : Session} (hs : s.Reachable) (steps : List Step) :
    (s.after steps).book.repository = s.book.repository := by
  induction steps using List.reverseRecOn with
  | nil => rfl
  | append_singleton steps step ih =>
    rw [after_concat, ← ih]
    rcases book_run (s.after steps) step with h | ⟨key, locale, values, scope, h⟩ | h | ⟨locale, h⟩
    · exact h.repository_eq
    · rw [h, Book.repository_answer (hs.after steps).sound]
    · rw [h, Book.repository_catalog]
    · rw [h]
      rfl

theorem Initial.reachable {s : Session} (h : s.Initial) : s.Reachable := ⟨s, [], h, rfl⟩

end Session

end Phrasebook
