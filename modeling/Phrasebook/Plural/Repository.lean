import Phrasebook.Plural.Category
import Phrasebook.Plural.Operands

/-!
# Repositories of plural rules

Which locales there are, and how their languages sort counts, is known elsewhere. A repository answers for a locale
that it does not know it, or what the category of every magnitude is.

* `Repository.category` is the plural category of a count in a locale. Where the locale is unknown, one thing is `one`
  and all else is `other`.
-/

namespace Phrasebook.Plural

/-- Locales with their plural rules. -/
structure Repository where
  /-- the categories of magnitudes in the locale with an identifier, of which the parts stand between underscores;
  nothing if the locale is unknown or the text is no identifier -/
  form? : String → Option (Magnitude → Category)

/-- The category of a count where nothing is known of the language. -/
def categoryOfOne : Value → Except Fault Category
  | .float .nan | .float (.infinite _) => .ok .other
  | count =>
    if [Value.int 1, .int (-1)].any count.agrees then .ok .one
    else match count with
      | .bool _ | .int _ | .float _ => .ok .other
      | count => .error (.noMagnitude count.typeName)

/-- An identifier with underscores between its parts. -/
def underscored (identifier : String) : String :=
  String.ofList (identifier.toList.map fun c => if c = '-' then '_' else c)

namespace Repository

/-- The categories of magnitudes in a locale, however the parts of its identifier are joined. -/
def formOf? (r : Repository) (locale : String) : Option (Magnitude → Category) := r.form? (underscored locale)

/-- The category of a count in a locale. -/
def category (r : Repository) (count : Value) (locale : String) : Except Fault Category :=
  match r.formOf? locale with
  | some form => form <$> Magnitude.ofCount count
  | none => categoryOfOne count

end Repository

end Phrasebook.Plural
