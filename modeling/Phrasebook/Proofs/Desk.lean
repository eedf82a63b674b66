import Phrasebook.Desk
import Phrasebook.Proofs.Audit
import Phrasebook.Proofs.Shelf
import Mathlib.Data.List.Induction
import Mathlib.Data.List.Nodup

/-!
# Catalogs by identity

The catalogs on the shelf of a desk belong to documents and not to what is in them.

* `Desk.makings` lists the catalogs that are made in a run, each with its document and what was in it then.
  `run_consult_cases` says what asking for a catalog can do, and `making?_cases` what a step does to the shelf.
* `Holds` ties the shelf to that list: the shelf holds the latest of them, oldest first. Every step keeps it
  (`Holds.run`), and so does a run (`holds_after`).
* `identity_cache`: in every run the shelf holds catalogs by identity, and never more than it has room for.
-/

namespace Phrasebook

/-- A catalog that was made: the number of the document, what was in it, and the issue. -/
structure Making where
  document : Nat
  content : Table
  issue : Issue

/-- The entry that a catalog has on the shelf. -/
def Making.entry (m : Making) : Nat × Issue := (m.document, m.issue)

namespace Desk

variable {d : Desk}

/-! ## Steps -/

/-- A slot refers to the document with its number. -/
theorem document?_eq_some_iff {slot : String} {n : Nat} {content : Table} :
    d.document? slot = some (n, content) ↔ d.slots.get? slot = some n ∧ d.documents[n]? = some content := by
  simp only [document?, Option.bind_eq_some_iff, Option.map_eq_some_iff, Prod.mk.injEq]
  constructor
  · rintro ⟨m, hm, tree, ht, rfl, rfl⟩
    exact ⟨hm, ht⟩
  · rintro ⟨hn, hc⟩
    exact ⟨n, hn, content, hc, rfl, rfl⟩

/-- The catalog that a step makes: that of a document without a catalog on the shelf, if it has one. -/
def making? (d : Desk) : Step → Option Making
  | .consult slot => (d.document? slot).bind fun (n, content) =>
    if n ∈ Ordered.keys d.shelf.held.entries then none
    else (Catalog.ofTable d.shelf.options content).outcome.toOption.map fun catalog =>
      ⟨n, content, ⟨d.shelf.made, catalog⟩⟩
  | _ => none

/-- The catalogs that are made in a run, the first one first. -/
def makings (d : Desk) : List Step → List Making
  | [] => []
  | step :: steps => (d.making? step).toList ++ makings (d.run step).1 steps

section Consult

variable {slot : String} {n : Nat} {content : Table}

/-- Asking for a catalog that is on the shelf gives it and changes nothing. -/
theorem run_consult_of_held (hd : d.document? slot = some (n, content)) {issue : Issue}
    (h : Ordered.get? n d.shelf.held.entries = some issue) :
    d.run (.consult slot) = (d, pure (.issue issue d.shelf.held.size)) := by
  simp only [run, hd, Shelf.consult_of_held h]
  rfl

/-- Asking for the catalog of a document that has none changes nothing. -/
theorem run_consult_of_error (hd : d.document? slot = some (n, content))
    (h : n ∉ Ordered.keys d.shelf.held.entries) {fault : Fault}
    (hc : (Catalog.ofTable d.shelf.options content).outcome = .error fault) :
    d.run (.consult slot) = (d, ⟨(Catalog.ofTable d.shelf.options content).findings, .error fault⟩) := by
  simp only [run, hd, Shelf.consult_of_error (Ordered.get?_eq_none_iff.2 h) hc]
  rfl

/-- Asking for a catalog that is not on the shelf makes it of what is in the document. -/
theorem run_consult_of_ok (hd : d.document? slot = some (n, content)) (h : n ∉ Ordered.keys d.shelf.held.entries)
    {catalog : Catalog} (hc : (Catalog.ofTable d.shelf.options content).outcome = .ok catalog) :
    d.run (.consult slot) = ({ d with shelf := d.shelf.add n catalog },
      ⟨(Catalog.ofTable d.shelf.options content).findings,
        .ok (.issue ⟨d.shelf.made, catalog⟩ (d.shelf.add n catalog).held.size)⟩) := by
  simp only [run, hd, Shelf.consult_of_ok (Ordered.get?_eq_none_iff.2 h) hc]
  simp [Audit.andThen, pure]

/-- **All that asking for a catalog can do**, with what is made. -/
theorem run_consult_cases (hd : d.document? slot = some (n, content)) :
    (∃ issue, Ordered.get? n d.shelf.held.entries = some issue ∧ d.making? (.consult slot) = none ∧
        d.run (.consult slot) = (d, pure (.issue issue d.shelf.held.size))) ∨
      n ∉ Ordered.keys d.shelf.held.entries ∧
        ((∃ fault, (Catalog.ofTable d.shelf.options content).outcome = .error fault ∧
            d.making? (.consult slot) = none ∧
            d.run (.consult slot) = (d, ⟨(Catalog.ofTable d.shelf.options content).findings, .error fault⟩)) ∨
          ∃ catalog, (Catalog.ofTable d.shelf.options content).outcome = .ok catalog ∧
            d.making? (.consult slot) = some ⟨n, content, ⟨d.shelf.made, catalog⟩⟩ ∧
            d.run (.consult slot) = ({ d with shelf := d.shelf.add n catalog },
              ⟨(Catalog.ofTable d.shelf.options content).findings,
                .ok (.issue ⟨d.shelf.made, catalog⟩ (d.shelf.add n catalog).held.size)⟩)) := by
  rcases d.shelf.consult_cases n content with ⟨issue, hi, -⟩ | ⟨hn, ⟨fault, hc, -⟩ | ⟨catalog, hc, -⟩⟩
  · refine Or.inl ⟨issue, hi, ?_, run_consult_of_held hd hi⟩
    have hn : n ∈ Ordered.keys d.shelf.held.entries := List.mem_map_of_mem (Ordered.mem_of_get? hi)
    simp only [making?, hd, Option.bind_some, if_pos hn]
  · rw [Ordered.get?_eq_none_iff] at hn
    refine Or.inr ⟨hn, Or.inl ⟨fault, hc, ?_, run_consult_of_error hd hn hc⟩⟩
    simp only [making?, hd, Option.bind_some, if_neg hn, hc, Except.toOption, Option.map_none]
  · rw [Ordered.get?_eq_none_iff] at hn
    refine Or.inr ⟨hn, Or.inr ⟨catalog, hc, ?_, run_consult_of_ok hd hn hc⟩⟩
    simp only [making?, hd, Option.bind_some, if_neg hn, hc, Except.toOption, Option.map_some]

end Consult

/-- All that a step does to the shelf: it leaves the shelf or clears it, or it makes a catalog and holds it. -/
theorem making?_cases (d : Desk) (step : Step) :
    d.making? step = none ∧ ((d.run step).1.shelf = d.shelf ∨ (d.run step).1.shelf = d.shelf.clear) ∨
      ∃ slot n content catalog, step = .consult slot ∧ d.document? slot = some (n, content) ∧
        n ∉ Ordered.keys d.shelf.held.entries ∧ (Catalog.ofTable d.shelf.options content).outcome = .ok catalog ∧
        d.making? step = some ⟨n, content, ⟨d.shelf.made, catalog⟩⟩ ∧ (d.run step).1.shelf = d.shelf.add n catalog := by
  cases step with
  | define slot tree => exact Or.inl ⟨rfl, Or.inl rfl⟩
  | share slot source =>
    refine Or.inl ⟨rfl, Or.inl ?_⟩
    rw [run]
    split <;> rfl
  | edit slot change =>
    refine Or.inl ⟨rfl, Or.inl ?_⟩
    rw [run]
    split <;> rfl
  | consult slot =>
    cases hd : d.document? slot with
    | none => exact Or.inl ⟨by simp only [making?, hd, Option.bind_none], Or.inl (by simp only [run, hd])⟩
    | some found =>
      obtain ⟨n, content⟩ := found
      rcases run_consult_cases hd with ⟨_, -, hmade, hrun⟩ | ⟨hn, ⟨_, -, hmade, hrun⟩ | ⟨catalog, hc, hmade, hrun⟩⟩
      · exact Or.inl ⟨hmade, Or.inl (by rw [hrun])⟩
      · exact Or.inl ⟨hmade, Or.inl (by rw [hrun])⟩
      · exact Or.inr ⟨slot, n, content, catalog, rfl, hd, hn, hc, hmade, by rw [hrun]⟩
  | clear => exact Or.inl ⟨rfl, Or.inr rfl⟩
  | count => exact Or.inl ⟨rfl, Or.inl rfl⟩

/-! ## Runs -/

theorem after_append (d : Desk) (steps steps' : List Step) :
    d.after (steps ++ steps') = (d.after steps).after steps' := List.foldl_append ..

theorem after_concat (d : Desk) (steps : List Step) (step : Step) :
    d.after (steps ++ [step]) = ((d.after steps).run step).1 := by
  rw [after_append]
  rfl

theorem makings_append (d : Desk) (steps steps' : List Step) :
    d.makings (steps ++ steps') = d.makings steps ++ (d.after steps).makings steps' := by
  induction steps generalizing d with
  | nil => rfl
  | cons step steps ih =>
    rw [List.cons_append, makings, ih, makings, List.append_assoc]
    rfl

theorem makings_concat (d : Desk) (steps : List Step) (step : Step) :
    d.makings (steps ++ [step]) = d.makings steps ++ ((d.after steps).making? step).toList := by
  rw [makings_append, makings, makings, List.append_nil]

/-- The shelf holds the latest of the catalogs that have been made. They are numbered in the order in which they were
made, each is the catalog of what was in its document, and no document has two of them on the shelf. -/
structure Holds (s : Shelf Nat) (made : List Making) : Prop where
  count : s.made = made.length
  numbered : made.map (fun m => m.issue.number) = List.range made.length
  fresh : ∀ m ∈ made, (Catalog.ofTable s.options m.content).outcome = .ok m.issue.catalog
  held : s.held.entries <:+ made.map Making.entry
  distinct : (Ordered.keys s.held.entries).Nodup

variable {s : Shelf Nat} {made : List Making}

theorem Holds.clear (h : Holds s made) : Holds s.clear made :=
  ⟨h.count, h.numbered, h.fresh, List.nil_suffix, List.nodup_nil⟩

/-- A catalog that is made is the latest one. -/
theorem Holds.add (h : Holds d.shelf made) {n : Nat} {content : Table} {catalog : Catalog}
    (hn : n ∉ Ordered.keys d.shelf.held.entries)
    (hc : (Catalog.ofTable d.shelf.options content).outcome = .ok catalog) :
    Holds (d.shelf.add n catalog) (made ++ [⟨n, content, ⟨d.shelf.made, catalog⟩⟩]) := by
  have hroom : Ordered.keys d.shelf.held.makeRoom <:+ Ordered.keys d.shelf.held.entries :=
    d.shelf.held.makeRoom_suffix.map _
  refine ⟨?_, ?_, ?_, ?_, ?_⟩
  · rw [Shelf.add, h.count, List.length_append, List.length_singleton]
  · rw [List.map_append, h.numbered, List.length_append, List.length_singleton, List.range_succ, List.map_singleton,
      h.count]
  · intro m hm
    rcases List.mem_append.1 hm with hm | hm
    · exact h.fresh m hm
    · cases List.mem_singleton.1 hm
      exact hc
  · obtain ⟨dropped, hdropped⟩ := d.shelf.held.makeRoom_suffix.trans h.held
    refine ⟨dropped, ?_⟩
    rw [Shelf.add, Fifo.entries_insert, ← List.append_assoc, hdropped, List.map_append]
    rfl
  · rw [Shelf.add, Fifo.entries_insert, Ordered.keys, List.map_append]
    refine List.nodup_append.2 ⟨h.distinct.sublist hroom.sublist, List.nodup_singleton n, ?_⟩
    rintro k hk k' hk' rfl
    obtain rfl : k = n := List.mem_singleton.1 hk'
    exact hn (hroom.subset hk)

/-- A step keeps the tie between the shelf and the catalogs that have been made. -/
theorem Holds.run (h : Holds d.shelf made) (step : Step) :
    Holds (d.run step).1.shelf (made ++ (d.making? step).toList) := by
  rcases d.making?_cases step with ⟨hm, hs | hs⟩ | ⟨_, n, content, catalog, -, -, hn, hc, hm, hs⟩
  · rw [hm, hs, Option.toList_none, List.append_nil]
    exact h
  · rw [hm, hs, Option.toList_none, List.append_nil]
    exact h.clear
  · rw [hm, hs, Option.toList_some]
    exact h.add hn hc

/-- A run keeps the tie. -/
theorem holds_after (h : Holds d.shelf []) (steps : List Step) : Holds (d.after steps).shelf (d.makings steps) := by
  induction steps using List.reverseRecOn with
  | nil => exact h
  | append_singleton steps step ih =>
    rw [after_concat, makings_concat]
    exact ih.run step

/-- The number of an issue tells which catalog it is. -/
theorem Holds.eq_of_number_eq (h : Holds s made) {m m' : Making} (hm : m ∈ made) (hm' : m' ∈ made)
    (hn : m.issue.number = m'.issue.number) : m = m' := by
  have hnodup : (made.map fun m => m.issue.number).Nodup := by
    rw [h.numbered]
    exact List.nodup_range
  exact List.inj_on_of_nodup_map hnodup hm hm' hn

/-- Steps change neither the options of a shelf nor the room on it. -/
theorem shelf_run (d : Desk) (step : Step) :
    (d.run step).1.shelf.options = d.shelf.options ∧ (d.run step).1.shelf.held.capacity = d.shelf.held.capacity := by
  rcases d.making?_cases step with ⟨-, hs | hs⟩ | ⟨_, n, content, catalog, -, -, -, -, -, hs⟩ <;> rw [hs] <;>
    exact ⟨rfl, rfl⟩

theorem shelf_after (d : Desk) (steps : List Step) :
    (d.after steps).shelf.options = d.shelf.options ∧
      (d.after steps).shelf.held.capacity = d.shelf.held.capacity := by
  induction steps using List.reverseRecOn with
  | nil => exact ⟨rfl, rfl⟩
  | append_singleton steps step ih =>
    rw [after_concat, (shelf_run _ step).1, (shelf_run _ step).2]
    exact ih

/-! ## Identity -/

/-- Asking for the catalog of the document that a slot refers to, which is the `n`th, gives an issue. -/
def Answers (d : Desk) (slot : String) (n : Nat) (issue : Issue) : Prop :=
  (∃ content, d.document? slot = some (n, content)) ∧
    ∃ held, (d.run (.consult slot)).2.outcome = .ok (.issue issue held)

/-- What is answered is on the shelf already, or it is made. -/
theorem Holds.exists_of_answers (h : Holds d.shelf made) {slot : String} {n : Nat} {issue : Issue}
    (ha : d.Answers slot n issue) :
    ∃ m ∈ made ++ (d.making? (.consult slot)).toList, m.document = n ∧ m.issue = issue := by
  obtain ⟨⟨content, hd⟩, held, ha⟩ := ha
  rcases run_consult_cases hd with ⟨issue', hi, -, hrun⟩ | ⟨-, ⟨fault, -, -, hrun⟩ | ⟨catalog, -, hmade, hrun⟩⟩
  · rw [hrun] at ha
    cases ha
    obtain ⟨m, hm, he⟩ := List.mem_map.1 (h.held.subset (Ordered.mem_of_get? hi))
    cases he
    exact ⟨m, List.mem_append_left _ hm, rfl, rfl⟩
  · rw [hrun] at ha
    cases ha
  · rw [hrun] at ha
    cases ha
    refine ⟨⟨n, content, ⟨d.shelf.made, catalog⟩⟩, List.mem_append_right _ ?_, rfl, rfl⟩
    rw [hmade]
    exact List.mem_singleton_self _

/-- A catalog that is made in a run is made of what is in a document at some time, when that is asked for and has no
catalog on the shelf. -/
theorem exists_of_mem_makings {steps : List Step} {m : Making} (hm : m ∈ d.makings steps) :
    ∃ earlier slot later, steps = earlier ++ .consult slot :: later ∧
      (d.after earlier).document? slot = some (m.document, m.content) ∧
      m.document ∉ Ordered.keys (d.after earlier).shelf.held.entries ∧
      (d.after earlier).Answers slot m.document m.issue := by
  induction steps using List.reverseRecOn with
  | nil => cases hm
  | append_singleton steps step ih =>
    rw [makings_concat] at hm
    rcases List.mem_append.1 hm with hm | hm
    · obtain ⟨earlier, slot, later, rfl, hd, hn, ha⟩ := ih hm
      exact ⟨earlier, slot, later ++ [step], by simp, hd, hn, ha⟩
    · rcases (d.after steps).making?_cases step with ⟨hnone, -⟩ | ⟨slot, n, content, catalog, rfl, hd, hn, hc, hmade, -⟩
      · rw [hnone] at hm
        cases hm
      · rw [hmade] at hm
        cases List.mem_singleton.1 hm
        refine ⟨steps, slot, [], rfl, hd, hn, ⟨content, hd⟩, ?_⟩
        rw [run_consult_of_ok hd hn hc]
        exact ⟨_, rfl⟩

/-- An issue that is answered twice in a run is answered for one document. -/
theorem eq_of_answers {first : Desk} (h : Holds first.shelf []) {earlier later : List Step} {slot slot' : String}
    {n n' : Nat} {issue issue' : Issue} (ha : (first.after earlier).Answers slot n issue)
    (ha' : (first.after (earlier ++ .consult slot :: later)).Answers slot' n' issue')
    (hnumber : issue.number = issue'.number) : n = n' ∧ issue = issue' := by
  obtain ⟨m, hm, rfl, rfl⟩ := (holds_after h earlier).exists_of_answers ha
  obtain ⟨m', hm', rfl, rfl⟩ := (holds_after h _).exists_of_answers ha'
  rw [← makings_concat] at hm hm'
  have hearlier : m ∈ first.makings (earlier ++ .consult slot :: later ++ [.consult slot']) := by
    rw [show earlier ++ .consult slot :: later ++ [.consult slot'] =
      (earlier ++ [.consult slot]) ++ (later ++ [.consult slot']) by simp, makings_append]
    exact List.mem_append_left _ hm
  obtain rfl := (holds_after h _).eq_of_number_eq hearlier hm' hnumber
  exact ⟨rfl, rfl⟩

/-- What asking for the catalog of a document does, the `n`th one, which holds `content` now. One that is on the shelf
is given and nothing changes; else it is made of the content: if there is none nothing changes, and if there is one it
is a new issue and comes last on the shelf, where the oldest quarter has made way for it if there was no room. -/
structure Consulted (d : Desk) (capacity : Nat) (made : List Making) (slot : String) (n : Nat) (content : Table) :
    Prop where
  held : ∀ issue, (n, issue) ∈ d.shelf.held.entries →
    d.run (.consult slot) = (d, pure (.issue issue d.shelf.held.entries.length))
  failed : n ∉ Ordered.keys d.shelf.held.entries → ∀ fault,
    (Catalog.ofTable d.shelf.options content).outcome = .error fault →
      d.run (.consult slot) = (d, ⟨(Catalog.ofTable d.shelf.options content).findings, .error fault⟩)
  made : n ∉ Ordered.keys d.shelf.held.entries → ∀ catalog,
    (Catalog.ofTable d.shelf.options content).outcome = .ok catalog →
      ∃ issue d', d.run (.consult slot) =
          (d', ⟨(Catalog.ofTable d.shelf.options content).findings, .ok (.issue issue d'.shelf.held.entries.length)⟩) ∧
        issue.catalog = catalog ∧ (∀ m ∈ made, m.issue.number ≠ issue.number) ∧
        d'.documents = d.documents ∧ d'.slots = d.slots ∧
        d'.shelf.held.entries = (if d.shelf.held.entries.length = capacity
          then d.shelf.held.entries.drop (max 1 (capacity / 4)) else d.shelf.held.entries) ++ [(n, issue)]

theorem Holds.consulted (h : Holds d.shelf made) {slot : String} {n : Nat} {content : Table}
    (hd : d.document? slot = some (n, content)) :
    d.Consulted d.shelf.held.capacity made slot n content := by
  refine ⟨?_, ?_, ?_⟩
  · intro issue hi
    exact run_consult_of_held hd (Ordered.get?_of_mem h.distinct hi)
  · intro hn fault hc
    exact run_consult_of_error hd hn hc
  · intro hn catalog hc
    refine ⟨⟨d.shelf.made, catalog⟩, _, run_consult_of_ok hd hn hc, rfl, ?_, rfl, rfl, ?_⟩
    · intro m hm heq
      have hmem : m.issue.number ∈ List.range made.length := by
        rw [← h.numbered]
        exact List.mem_map_of_mem hm
      rw [heq, h.count] at hmem
      exact absurd (List.mem_range.1 hmem) (Nat.lt_irrefl _)
    · rw [← Fifo.makeRoom_eq]
      rfl

/-- **The shelf of a desk keeps catalogs by identity.** In every run it holds at most as many catalogs as it has room
for. They are the latest of those that have been made, in order; each was made of what was in its document when it was
asked for, and no catalog is given for another document than that which it was made for. What asking for a catalog does
is told by `Consulted`. -/
theorem identity_cache (options : Options) {capacity : Int} (hcapacity : 1 ≤ capacity) :
    ∃ first, ofCapacity options capacity = .ok first ∧ ∀ steps,
      let d := first.after steps
      (d.shelf.held.entries.length : Int) ≤ capacity ∧ d.shelf.options = options ∧
        d.shelf.held.entries <:+ (first.makings steps).map Making.entry ∧
        (∀ m ∈ first.makings steps, (Catalog.ofTable options m.content).outcome = .ok m.issue.catalog ∧
          ∃ earlier slot later, steps = earlier ++ .consult slot :: later ∧
            (first.after earlier).document? slot = some (m.document, m.content) ∧
            m.document ∉ Ordered.keys (first.after earlier).shelf.held.entries ∧
            (first.after earlier).Answers slot m.document m.issue) ∧
        (∀ earlier slot later n issue slot' n' issue', steps = earlier ++ .consult slot :: later →
          (first.after earlier).Answers slot n issue → d.Answers slot' n' issue' → issue.number = issue'.number →
            n = n' ∧ issue = issue') ∧
        ∀ slot n content, d.document? slot = some (n, content) →
          d.Consulted capacity.toNat (first.makings steps) slot n content := by
  have hpos : 0 < capacity.toNat := by omega
  let first : Desk := { shelf := { options, held := Fifo.empty capacity.toNat hpos } }
  have hfirst : ofCapacity options capacity = .ok first := by
    unfold ofCapacity Fifo.ofCapacity
    rw [dif_pos hpos]
    rfl
  have hempty : Holds first.shelf [] := ⟨rfl, rfl, fun _ hm => (by cases hm), List.nil_suffix, List.nodup_nil⟩
  refine ⟨first, hfirst, fun steps => ?_⟩
  intro d
  have hholds : Holds d.shelf (first.makings steps) := holds_after hempty steps
  obtain ⟨hoptions, hroom⟩ : d.shelf.options = options ∧ d.shelf.held.capacity = capacity.toNat :=
    first.shelf_after steps
  refine ⟨?_, hoptions, hholds.held, ?_, ?_, ?_⟩
  · have := d.shelf.held.size_le
    omega
  · intro m hm
    refine ⟨?_, exists_of_mem_makings hm⟩
    rw [← hoptions]
    exact hholds.fresh m hm
  · rintro earlier slot later n issue slot' n' issue' rfl ha ha' hnumber
    exact eq_of_answers hempty ha ha' hnumber
  · intro slot n content hd
    rw [← hroom]
    exact hholds.consulted hd

/-- Two documents of equal content have a catalog each. The first one has kept its own since it was changed, until the
catalog of a third document has taken its place. -/
theorem identity_cache_twins :
    let twin : Table := [(.text "a", .text "{x}")]
    let steps : List Step := [.define "left" twin, .define "right" twin, .consult "left", .consult "right",
      .change "left" (.text "b") (.text "{y}"), .consult "left", .define "third" [], .consult "third"]
    (1 : Int) ≤ 2 ∧ ∃ first, ofCapacity {} 2 = .ok first ∧
      (first.makings steps).map (fun m => (m.document, m.issue.number)) = [(0, 0), (1, 1), (2, 2)] ∧
      (first.after steps).shelf.held.entries.map (fun entry => (entry.1, entry.2.number)) = [(1, 1), (2, 2)] ∧
      ∃ content, content.length = 2 ∧ (first.after steps).Consulted 2 (first.makings steps) "left" 0 content := by
  intro twin steps
  have hroom : (1 : Int) ≤ 2 := by decide
  obtain ⟨first, hfirst, h⟩ := identity_cache {} hroom
  have hbare : first = { shelf := { options := {}, held := Fifo.empty 2 (by decide) } } := (Except.ok.inj hfirst).symm
  have hleft : ((first.after steps).document? "left").map (fun found => (found.1, found.2.length)) = some (0, 2) := by
    rw [hbare]
    decide +kernel
  obtain ⟨⟨n, content⟩, hd, heq⟩ := Option.map_eq_some_iff.1 hleft
  obtain ⟨rfl, hlength⟩ := Prod.mk.inj heq
  refine ⟨hroom, first, hfirst, ?_, ?_, content, hlength, (h steps).2.2.2.2.2 "left" 0 content hd⟩
  · rw [hbare]
    decide +kernel
  · rw [hbare]
    decide +kernel

end Desk

end Phrasebook
