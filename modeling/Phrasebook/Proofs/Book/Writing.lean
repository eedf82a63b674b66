import Phrasebook.Book.Get
import Phrasebook.Proofs.Audit

/-!
# What the text of a call depends on

The text of a call is that of one value among the texts of its locale, which the contract of the phrase picks.

* `Book.contractOf` is the contract that a phrase is held to at present; `Writes` says what a call is answered with
  under a contract.
* `write_eq_ok_iff`: a text is written exactly if the catalog has a contract that writes it.
-/

namespace Phrasebook.Book

/-- The catalog of the representative phrase tree, made afresh. -/
def analysis (b : Book) : Except Fault Catalog :=
  match b.representative? with
  | none => .error .noLocales
  | some (_, tree) => (Catalog.ofTable b.shelf.options tree).outcome

/-- The contract that the phrase at a path is held to. -/
def contractOf (b : Book) (path : String) : Except Fault Contract := b.analysis.bind fun c => c.contract path none

/-- The path that a contract picks for a call: that of the phrase itself, or that of the variant for the count. -/
def pathUnder (repository : Plural.Repository) (contract : Contract) (texts : Ordered String Value) (call : Call) :
    Except Fault String :=
  if contract.isPlural then
    variantIn repository texts (Path.resolve call.key call.scope) call.locale
      ((call.values.get? (.text countName)).getD .null)
  else .ok (Path.resolve call.key call.scope)

/-- The value at a path among the texts of a locale. -/
def textAt (texts : Ordered String Value) (path locale : String) : Except Fault Value :=
  match texts.get? path with
  | some value => .ok value
  | none => .error (.noText path locale)

theorem textAt_eq_ok_iff {texts : Ordered String Value} {path locale : String} {value : Value} :
    textAt texts path locale = .ok value ↔ texts.get? path = some value := by
  unfold textAt
  cases texts.get? path <;> simp

/-- Under a contract and from the texts of its locale, a call is answered with a text: nothing is missing, and the text
is that of the value at the path that the contract picks. -/
def Writes (repository : Plural.Repository) (contract : Contract) (texts : Ordered String Value) (call : Call)
    (text : String) : Prop :=
  contract.missing call.values = [] ∧ ∃ path value, pathUnder repository contract texts call = .ok path ∧
    texts.get? path = some value ∧ Template.fill call.values value = .ok text

variable {repository : Plural.Repository}

/-- The path of a variant is picked from the variants of the phrase. -/
theorem variantPath_of_variantIn {texts : Ordered String Value} {path locale variant : String} {count : Value}
    (h : variantIn repository texts path locale count = .ok variant) :
    ∃ category, variant = Plural.variantPath path category := by
  obtain ⟨categories, -, h⟩ := bind_eq_ok_iff.1 h
  split at h
  · next category _ => cases h; exact ⟨category, rfl⟩
  · cases h

/-- The path that is picked is that of the phrase or of one of its variants. -/
theorem eq_of_pathUnder {contract : Contract} {texts : Ordered String Value} {call : Call} {path : String}
    (h : pathUnder repository contract texts call = .ok path) :
    path = Path.resolve call.key call.scope ∨
      ∃ category, path = Plural.variantPath (Path.resolve call.key call.scope) category := by
  unfold pathUnder at h
  split at h
  · exact Or.inr (variantPath_of_variantIn h)
  · cases h
    exact Or.inl rfl

/-- What a contract writes is written by every contract that misses nothing and is plural if the first one is. -/
theorem Writes.of_isPlural_eq {contract contract' : Contract} {texts : Ordered String Value} {call : Call}
    {text : String} (hw : Writes repository contract texts call text) (hm : contract'.missing call.values = [])
    (hp : contract'.isPlural = contract.isPlural) : Writes repository contract' texts call text := by
  obtain ⟨-, path, value, hpath, hv, hf⟩ := hw
  refine ⟨hm, path, value, ?_, hv, hf⟩
  unfold pathUnder at hpath ⊢
  rw [hp]
  exact hpath

/-- Writing in four steps: the contract, what is missing, the path, and the text there. -/
theorem write_eq (repository : Plural.Repository) (catalog : Catalog) (texts : Ordered String Value) (call : Call) :
    write repository catalog texts call = (do
      let path := Path.resolve call.key call.scope
      let contract ← catalog.contract path none
      if contract.missing call.values = [] then do
        let path ← pathUnder repository contract texts call
        let value ← textAt texts path call.locale
        Template.fill call.values value
      else .error (.missing path (contract.missing call.values))) := by
  unfold write pathUnder textAt
  refine bind_congr fun contract => ?_
  by_cases hm : contract.missing call.values = []
  · by_cases hp : contract.isPlural = true
    · simp only [hm, hp, List.isEmpty_nil, Bool.not_true, Bool.false_eq_true, if_false, if_true]
      refine bind_congr fun path => ?_
      cases texts.get? path <;> rfl
    · simp only [hm, hp, List.isEmpty_nil, Bool.not_true, Bool.false_eq_true, if_false, if_true, pure_bind, ok_bind]
      cases texts.get? (Path.resolve call.key call.scope) <;> rfl
  · have he : (contract.missing call.values).isEmpty = false := by simpa using hm
    simp only [he, hm, Bool.not_false, if_true, if_false]
    rfl

/-- A text is written exactly if the contract of the phrase writes it. -/
theorem write_eq_ok_iff {catalog : Catalog} {texts : Ordered String Value} {call : Call} {text : String} :
    write repository catalog texts call = .ok text ↔
      ∃ contract, catalog.contract (Path.resolve call.key call.scope) none = .ok contract ∧
        Writes repository contract texts call text := by
  rw [write_eq, bind_eq_ok_iff]
  refine exists_congr fun contract => and_congr_right fun _ => ?_
  unfold Writes
  by_cases hm : contract.missing call.values = []
  · simp only [hm, if_true, true_and, bind_eq_ok_iff, textAt_eq_ok_iff]
    simp only [exists_and_left]
  · simp only [hm, if_false, false_and, iff_false]
    intro h
    cases h

end Phrasebook.Book
