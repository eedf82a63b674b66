import Phrasebook.Finding
import Phrasebook.Ordered
import Phrasebook.Text.Blank
import Phrasebook.Text.Lower
import Phrasebook.Text.Similarity
import Phrasebook.Tree.Leaves

/-!
# Plural families

The plural variants of a phrase are the leaves whose paths are its own path, a `#` and the name of a category. They
make up one family; every other leaf is an ordinary phrase.

* `variantPath` and `splitVariant?` go between a base path with a category and the path of a variant.
* `Grouping.ofEntries` sorts leaves into ordinary phrases and families. It fails if a path would be both.
* `suffixFindings` reports ordinary paths that end almost like a variant.
-/

namespace Phrasebook.Plural

/-! ## Paths of variants -/

/-- The path of a variant. -/
def variantPath (base : String) (category : Category) : String := base ++ "#" ++ category.name

/-- The base path and the category of a path of a variant. The last key of the base path is not empty. -/
def splitVariant? (path : String) : Option (String × Category) := do
  let (base, token) ← Text.cutAtLast? '#' path.toList
  let category ← Category.ofName? (String.ofList token)
  if base.isEmpty || base.getLast? = some '.' then none else some (String.ofList base, category)

/-- Whether a text is close to the name of a category. -/
def resemblesCategory (token : List Char) : Bool :=
  let word := Text.lower (Text.trim token)
  Category.all.any fun category => category.name.toList = word || Text.alike category.name.toList word

/-- What is odd about the end of an ordinary path. -/
def suffixFindings (path : String) : List Finding :=
  match Text.cutAtLast? '#' path.toList with
  | none => []
  | some (_, token) =>
    if token.contains '.' then []
    else match Category.ofName? (String.ofList token) with
      | some category => [.baselessVariant path category]
      | none => if resemblesCategory token then [.nearVariant path (String.ofList token)] else []

/-! ## Grouping -/

/-- The variants of a phrase in the order in which they came. -/
abbrev Variants := Ordered Category Value

/-- Leaves sorted into ordinary phrases and families. -/
structure Grouping where
  ordinary : Ordered String Value := []
  families : Ordered String Variants := []
  /-- the paths of the ordinary phrases and the base paths of the families, in order of first appearance -/
  keys : List String := []

namespace Grouping

/-- Adds a key unless it is there. -/
def addKey (key : String) (keys : List String) : List String := if key ∈ keys then keys else keys ++ [key]

/-- Adds a leaf. -/
def add (g : Grouping) (entry : Entry) : Grouping :=
  match splitVariant? entry.path with
  | none =>
    { g with ordinary := g.ordinary.put entry.path entry.value, keys := addKey entry.path g.keys }
  | some (base, category) =>
    let variants := (g.families.get? base).getD []
    { g with families := g.families.put base (variants.put category entry.value), keys := addKey base g.keys }

/-- Whether a path is a plural phrase. -/
def isPlural (g : Grouping) (key : String) (scope : Option String) : Bool := g.families.has (Path.resolve key scope)

/-- Whether a path is a phrase. -/
def has (g : Grouping) (key : String) : Bool := g.ordinary.has key || g.families.has key

/-- Sorts leaves, whether they fit together or not. -/
def collect (entries : List Entry) : Grouping := entries.foldl add {}

/-- The first key that is both an ordinary phrase and a family. -/
def clash? (g : Grouping) : Option String := g.keys.find? fun key => g.ordinary.has key && g.families.has key

/-- What is odd about the paths of some leaves. -/
def findings (entries : List Entry) : List Finding :=
  entries.flatMap fun entry => if (splitVariant? entry.path).isSome then [] else suffixFindings entry.path

/-- Sorts leaves into ordinary phrases and families. -/
def ofEntries (entries : List Entry) : Audit Grouping :=
  let g := collect entries
  ⟨findings entries, match g.clash? with
    | some key => .error (.clash key)
    | none => .ok g⟩

end Grouping

end Phrasebook.Plural
