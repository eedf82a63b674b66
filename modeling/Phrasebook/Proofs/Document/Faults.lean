import Phrasebook.Document.Parsers

/-!
# Faults of documents

A document that cannot be read breaks the rules of its format, or something in it will not do.

* `Json.isOfValue_of_read`: a JSON document is refused with a fault about a value.
* `Yaml.faulty_of_read`: a YAML document breaks the rules, or a date or a time in it is out of range.
* `Parsers.documented_standard`: the parsers of this library are as parsers are documented to be.
-/

namespace Phrasebook

variable {fault : Fault}

namespace Json

theorem isOfValue_of_unlessBroken {α : Type} {found : Option α} (h : unlessBroken found = .error fault) :
    fault.isOfValue = true := by
  cases found with
  | some a => cases h
  | none =>
    cases h
    rfl

theorem isOfValue_of_cutNumber {cs : List Char} (h : cutNumber cs = .error fault) : fault.isOfValue = true := by
  unfold cutNumber at h
  dsimp only at h
  rcases bind_eq_error_iff.1 h with h | ⟨⟨whole, rest⟩, -, h⟩
  · exact isOfValue_of_unlessBroken h
  · dsimp only at h
    split at h
    · split at h
      · cases h
        rfl
      · cases h
    · rcases bind_eq_error_iff.1 h with h | ⟨d, -, h⟩
      · exact isOfValue_of_unlessBroken h
      · cases h

/-- A value, the elements of a list and the members of a table are refused with a fault about a value. -/
theorem isOfValue_of_cut (fuel : Nat) : ∀ {cs : List Char} {fault : Fault},
    (cutValue fuel cs = .error fault → fault.isOfValue = true) ∧
      (cutElements fuel cs = .error fault → fault.isOfValue = true) ∧
      (cutMembers fuel cs = .error fault → fault.isOfValue = true) := by
  induction fuel with
  | zero =>
    intro cs fault
    refine ⟨fun h => ?_, fun h => ?_, fun h => ?_⟩ <;> cases h <;> rfl
  | succ fuel ih =>
    intro cs fault
    refine ⟨fun h => ?_, fun h => ?_, fun h => ?_⟩
    · unfold cutValue at h
      split at h
      · rcases bind_eq_error_iff.1 h with h | ⟨_, -, h⟩
        · exact isOfValue_of_unlessBroken h
        · cases h
      · split at h
        · cases h
        · rcases bind_eq_error_iff.1 h with h | ⟨_, -, h⟩
          · exact ih.2.1 h
          · cases h
      · split at h
        · cases h
        · rcases bind_eq_error_iff.1 h with h | ⟨_, -, h⟩
          · exact ih.2.2 h
          · cases h
      · split at h
        · cases h
        · exact isOfValue_of_cutNumber h
    · unfold cutElements at h
      rcases bind_eq_error_iff.1 h with h | ⟨⟨v, rest⟩, -, h⟩
      · exact ih.1 h
      · dsimp only at h
        split at h
        · cases h
        · rcases bind_eq_error_iff.1 h with h | ⟨_, -, h⟩
          · exact ih.2.1 h
          · cases h
        · cases h
          rfl
    · unfold cutMembers at h
      split at h
      · rcases bind_eq_error_iff.1 h with h | ⟨⟨key, rest⟩, -, h⟩
        · exact isOfValue_of_unlessBroken h
        · dsimp only at h
          split at h
          · rcases bind_eq_error_iff.1 h with h | ⟨⟨v, rest⟩, -, h⟩
            · exact ih.1 h
            · dsimp only at h
              split at h
              · cases h
              · rcases bind_eq_error_iff.1 h with h | ⟨_, -, h⟩
                · exact ih.2.2 h
                · cases h
              · cases h
                rfl
          · cases h
            rfl
      · cases h
        rfl

theorem isOfValue_of_read {s : String} (h : read s = .error fault) : fault.isOfValue = true := by
  unfold read at h
  dsimp only at h
  rcases bind_eq_error_iff.1 h with h | ⟨⟨v, rest⟩, -, h⟩
  · exact (isOfValue_of_cut _).1 h
  · dsimp only at h
    split at h
    · cases h
    · cases h
      rfl

end Json

namespace Yaml

/-- A fault of a YAML document: it breaks the rules, or a date or a time in it is out of range. -/
def Faulty (fault : Fault) : Prop := fault = .malformed .yaml ∨ ∃ field, fault = .misfit field

/-- A date or a moment is not read because of one of its fields. -/
theorem faulty_of_date? {cs : List Char} (h : date? cs = some (.error fault)) : Faulty fault := by
  simp only [date?, Option.bind_eq_bind] at h
  obtain ⟨⟨y, cs⟩, -, h⟩ := Option.bind_eq_some_iff.1 h
  dsimp only at h
  split at h
  · obtain ⟨⟨m, cs⟩, -, h⟩ := Option.bind_eq_some_iff.1 h
    dsimp only at h
    split at h
    · obtain ⟨⟨d, cs⟩, -, h⟩ := Option.bind_eq_some_iff.1 h
      dsimp only at h
      split at h
      · split at h
        · obtain ⟨field, -, rfl⟩ := mapError_eq_error_iff.1 (Option.some.inj h)
          exact Or.inr ⟨field, rfl⟩
        · cases h
      · obtain ⟨_, -, h⟩ := Option.bind_eq_some_iff.1 h
        obtain ⟨field, -, rfl⟩ := mapError_eq_error_iff.1 (Option.some.inj h)
        exact Or.inr ⟨field, rfl⟩
    · cases h
  · cases h

theorem faulty_of_resolve {cs : List Char} (h : resolve cs = .error fault) : Faulty fault := by
  unfold resolve at h
  dsimp only at h
  split at h
  · cases h
  · split at h
    · cases h
      exact Or.inl rfl
    · split at h
      · cases h
      · cases hd : date? cs with
        | none =>
          rw [hd] at h
          cases h
        | some date =>
          rw [hd, Option.getD_some] at h
          exact faulty_of_date? (h ▸ hd)

theorem faulty_of_keyOf {value : Node → Except Fault Value} {node : Node}
    (hvalue : ∀ fault, value node = .error fault → Faulty fault) (h : keyOf value node = .error fault) :
    Faulty fault := by
  unfold keyOf at h
  split at h
  · cases h
  · rcases bind_eq_error_iff.1 h with h | ⟨key, -, h⟩
    · exact hvalue fault h
    · split at h <;> cases h
      exact Or.inl rfl

/-- A node whose parts have a value has one, or breaks the rules itself. -/
theorem faulty_of_valueWithin {fuel : Nat} : ∀ {node : Node} {fault : Fault}, node.valueWithin fuel = .error fault →
    Faulty fault := by
  induction fuel with
  | zero =>
    intro node fault h
    cases h
    exact Or.inl rfl
  | succ fuel ih =>
    intro node fault h
    unfold Node.valueWithin at h
    split at h
    · split at h
      · exact faulty_of_resolve h
      · cases h
    · obtain ⟨node, -, h⟩ := exists_of_mapM_eq_error (map_eq_error_iff.1 h)
      exact ih h
    · split at h
      · cases h
        exact Or.inl rfl
      · rcases bind_eq_error_iff.1 h with h | ⟨items, -, h⟩
        · obtain ⟨⟨k, v⟩, -, h⟩ := exists_of_mapM_eq_error h
          rcases bind_eq_error_iff.1 h with h | ⟨key, -, h⟩
          · exact faulty_of_keyOf (fun fault h => ih h) h
          · rcases bind_eq_error_iff.1 h with h | ⟨value, -, h⟩
            · exact ih h
            · cases h
        · cases h

theorem faulty_of_read {s : String} (h : read s = .error fault) : Faulty fault := by
  unfold read at h
  split at h
  · cases h
    exact Or.inl rfl
  · cases h
  · exact faulty_of_valueWithin h

end Yaml

namespace Parsers

/-- What reads octets as a text refuses them for their encoding, or refuses the text. -/
theorem eq_undecodable_or_of_decoded {read : String → Except Fault Value} {bytes : ByteArray}
    (h : decoded read bytes = .error fault) : fault = .undecodable ∨ ∃ s, read s = .error fault := by
  unfold decoded at h
  split at h
  · cases h
    exact Or.inl rfl
  · exact Or.inr ⟨_, h⟩

/-- **The parsers of this library are as parsers are documented to be.** -/
theorem documented_standard : standard.Documented where
  json := Json.isOfValue_of_read
  yaml h := by
    rcases eq_undecodable_or_of_decoded h with rfl | ⟨s, h⟩
    · exact Or.inr rfl
    · rcases Yaml.faulty_of_read h with rfl | ⟨field, rfl⟩
      · exact Or.inl rfl
      · exact Or.inr rfl
  toml h := by
    rcases eq_undecodable_or_of_decoded h with rfl | ⟨s, h⟩
    · rfl
    · unfold readToml at h
      split at h <;> cases h
      rfl

/-- A document is refused as its parser refuses it, or it is a JSON document that cannot be decoded. -/
theorem Documented.read {p : Parsers} (hp : p.Documented) {format : Format} {bytes : ByteArray}
    (h : p.read format bytes = .error fault) :
    format = .yaml ∧ fault = .malformed .yaml ∨ fault.isOfValue = true := by
  cases format with
  | json =>
    right
    unfold Parsers.read at h
    dsimp only at h
    split at h
    · cases h
      rfl
    · unfold readJson at h
      split at h
      · cases h
      · next hjson =>
        split at h
        · exact hp.json h
        · cases h
          exact hp.json hjson
  | yaml => exact (hp.yaml h).imp_left fun hfault => ⟨rfl, hfault⟩
  | toml => exact Or.inr (hp.toml h)

end Parsers

end Phrasebook
