import Phrasebook.Text.Cut

/-!
# Paths

A phrase is addressed by the keys that lead to it, joined by dots. The part of a path before one of its dots is a scope,
and keys can be given relative to a scope.

* `segments` and `join` go between a path and its keys.
* `scopes` lists the scopes of some paths in the order in which they first appear.
* `resolve` and `relative?` go between a path and a key relative to a scope.
-/

namespace Phrasebook.Path

/-- The path of a row of keys. -/
def join (keys : List String) : String := String.ofList (Text.join '.' (keys.map String.toList))

/-- The keys of a path. -/
def segments (path : String) : List String := (Text.fields '.' path.toList).map String.ofList

/-- Whether a text can be a key: it is not empty and holds no dot. -/
def isKey (key : String) : Bool := key ≠ "" && !key.toList.contains '.'

/-- The paths that end before one of the dots of a path, shortest first. -/
def ancestors (path : String) : List String :=
  let keys := segments path
  (List.range (keys.length - 1)).map fun n => join (keys.take (n + 1))

/-- Every scope of the paths, each once, in order of first appearance. -/
def scopes (paths : List String) : List String := (paths.flatMap ancestors).eraseDups

/-- The path of a key relative to a scope; an empty scope is none. -/
def resolve (key : String) : Option String → String
  | none => key
  | some scope => if scope = "" then key else scope ++ "." ++ key

/-- The key of a path relative to a scope, if the path lies in the scope. -/
def relative? (path : String) : Option String → Option String
  | none => some path
  | some scope =>
    if scope = "" then some path
    else match Text.after? (scope.toList ++ ['.']) path.toList with
      | some (c :: cs) => some (String.ofList (c :: cs))
      | _ => none

/-- Going back and forth between a path and its keys. -/
@[simp] theorem join_segments (path : String) : join (segments path) = path := by
  have h : (segments path).map String.toList = Text.fields '.' path.toList := by
    simp [segments, Function.comp_def]
  rw [join, h, Text.join_fields, String.ofList_toList]

/-- The keys of a path with a dot are those before it and those behind it. -/
theorem segments_append (path rest : String) : segments (path ++ "." ++ rest) = segments path ++ segments rest := by
  have h : (path ++ "." ++ rest).toList = path.toList ++ '.' :: rest.toList := by simp
  rw [segments, h, Text.fields_append_cons, List.map_append]
  rfl

/-- Keys without dots are the keys of their path. -/
theorem segments_join {keys : List String} (hne : keys ≠ []) (hk : ∀ key ∈ keys, isKey key = true) :
    segments (join keys) = keys := by
  have hdots : ∀ f ∈ keys.map String.toList, '.' ∉ f := by
    intro f hf
    obtain ⟨key, hkey, rfl⟩ := List.mem_map.1 hf
    have := hk key hkey
    simp only [isKey, Bool.and_eq_true, Bool.not_eq_true', List.contains_eq_mem, decide_eq_false_iff_not] at this
    exact this.2
  have hne' : keys.map String.toList ≠ [] := by simpa using hne
  rw [segments, join, String.toList_ofList, Text.fields_join hne' hdots]
  simp [Function.comp_def]

/-- No two rows of keys without dots have the same path. -/
theorem join_inj {keys keys' : List String} (hne : keys ≠ []) (hne' : keys' ≠ [])
    (hk : ∀ key ∈ keys, isKey key = true) (hk' : ∀ key ∈ keys', isKey key = true) :
    join keys = join keys' ↔ keys = keys' := by
  constructor
  · intro h
    rw [← segments_join hne hk, h, segments_join hne' hk']
  · rintro rfl
    rfl

end Phrasebook.Path
