import Phrasebook.Plural.Language
import Phrasebook.Plural.Repository
import Phrasebook.Text.Cut
import Phrasebook.Text.Lower

/-!
# Locales

A locale identifier names a language, and perhaps a script, a region and a variant, with underscores between them. What
follows an `@` or a dot is left out.

* `Locale.ofText?` reads an identifier.
* `Locale.rules?` finds the plural rules of a locale: its language must be known, and known to be used in its region.
* `Repository.standard` are these locales with their rules.
-/

namespace Phrasebook.Plural

/-- A language, and the region in which it is used. -/
structure Locale where
  language : String
  region : Option String := none
  deriving DecidableEq, Repr

namespace Locale

/-! ## Identifiers -/

/-- Drops the first part of an identifier if it is one of the kind. -/
def dropPart (kind : List Char → Bool) : List (List Char) → List (List Char)
  | part :: parts => if kind part then parts else part :: parts
  | [] => []

/-- Whether a part of an identifier names a script. -/
def isScript (part : List Char) : Bool := part.length = 4 && part.all Char.isAlpha

/-- Whether a part of an identifier names a region. -/
def isRegion (part : List Char) : Bool :=
  (part.length = 2 && part.all Char.isAlpha) || (part.length = 3 && part.all Char.isDigit)

/-- Whether a part of an identifier names a variant. -/
def isVariant : List Char → Bool
  | [] => false
  | c :: cs => (cs.length = 3 && c.isDigit) || (4 ≤ cs.length && c.isAlpha)

/-- Reads an identifier. -/
def ofText? (identifier : String) : Option Locale :=
  let cs := (identifier.toList.takeWhile (· ≠ '@')).takeWhile (· ≠ '.')
  match Text.fields '_' cs with
  | [] => none
  | first :: parts =>
    let language := Text.lower first
    if language.isEmpty || !language.all Char.isAlpha then none
    else
      let parts := dropPart isScript parts
      let region := (parts.head?.filter isRegion).map fun part => String.ofList (part.map Char.toUpper)
      let parts := dropPart isVariant (dropPart isRegion parts)
      if parts.isEmpty then some { language := String.ofList language, region } else none

/-! ## Known locales -/

/-- Codes of languages that have a newer code. -/
def languageAliases : List (String × String) :=
  [("in", "id"), ("iw", "he"), ("ji", "yi"), ("mo", "ro"), ("tl", "fil")]

/-- Numbers of regions that have a code of letters. -/
def regionAliases : List (String × String) := [
  ("040", "AT"), ("056", "BE"), ("076", "BR"), ("124", "CA"), ("156", "CN"), ("203", "CZ"), ("208", "DK"), ("250", "FR"),
  ("276", "DE"), ("300", "GR"), ("356", "IN"), ("372", "IE"), ("376", "IL"), ("380", "IT"), ("392", "JP"), ("398", "KZ"),
  ("410", "KR"), ("440", "LT"), ("484", "MX"), ("528", "NL"), ("616", "PL"), ("620", "PT"), ("642", "RO"), ("643", "RU"),
  ("703", "SK"), ("705", "SI"), ("724", "ES"), ("752", "SE"), ("756", "CH"), ("792", "TR"), ("804", "UA"), ("826", "GB"),
  ("840", "US")]

/-- The language that is meant when only a region is known. -/
def undeterminedLanguage : Option String → String
  | some "AT" | some "DE" | some "CH" | some "LI" => "de"
  | some "RU" | some "BY" | some "KZ" => "ru"
  | some "FR" => "fr"
  | some "ES" | some "MX" | some "AR" | some "CO" | some "CL" => "es"
  | some "IT" => "it"
  | some "BR" | some "PT" => "pt"
  | some "PL" => "pl"
  | some "UA" => "uk"
  | _ => "en"

/-- The regions in which a language is used. -/
def regionsOf (language : String) : List String :=
  match language with
  | "ar" => ["001", "AE", "BH", "DJ", "DZ", "EG", "EH", "ER", "IL", "IQ", "JO", "KM", "KW", "LB", "LY", "MA", "MR", "OM",
      "PS", "QA", "SA", "SD", "SO", "SS", "SY", "TD", "TN", "YE"]
  | "bn" => ["BD", "IN"]
  | "ca" => ["AD", "ES", "FR", "IT"]
  | "da" => ["DK", "GL"]
  | "de" => ["AT", "BE", "CH", "DE", "IT", "LI", "LU"]
  | "el" => ["CY", "GR"]
  | "en" => ["001", "150", "AE", "AG", "AI", "AS", "AT", "AU", "BB", "BE", "BI", "BM", "BS", "BW", "BZ", "CA", "CC", "CH",
      "CK", "CM", "CX", "CY", "DE", "DG", "DK", "DM", "ER", "FI", "FJ", "FK", "FM", "GB", "GD", "GG", "GH", "GI", "GM",
      "GU", "GY", "HK", "IE", "IL", "IM", "IN", "IO", "JE", "JM", "KE", "KI", "KN", "KY", "LC", "LR", "LS", "MG", "MH",
      "MO", "MP", "MS", "MT", "MU", "MV", "MW", "MY", "NA", "NF", "NG", "NL", "NR", "NU", "NZ", "PG", "PH", "PK", "PN",
      "PR", "PW", "RW", "SB", "SC", "SD", "SE", "SG", "SH", "SI", "SL", "SS", "SX", "SZ", "TC", "TK", "TO", "TT", "TV",
      "TZ", "UG", "UM", "US", "VC", "VG", "VI", "VU", "WS", "ZA", "ZM", "ZW"]
  | "es" => ["419", "AR", "BO", "BR", "BZ", "CL", "CO", "CR", "CU", "DO", "EA", "EC", "ES", "GQ", "GT", "HN", "IC", "MX",
      "NI", "PA", "PE", "PH", "PR", "PY", "SV", "US", "UY", "VE"]
  | "fr" => ["BE", "BF", "BI", "BJ", "BL", "CA", "CD", "CF", "CG", "CH", "CI", "CM", "DJ", "DZ", "FR", "GA", "GF", "GN",
      "GP", "GQ", "HT", "KM", "LU", "MA", "MC", "MF", "MG", "ML", "MQ", "MR", "MU", "NC", "NE", "PF", "PM", "RE", "RW",
      "SC", "SN", "SY", "TD", "TG", "TN", "VU", "WF", "YT"]
  | "ga" => ["GB", "IE"]
  | "hr" => ["BA", "HR"]
  | "it" => ["CH", "IT", "SM", "VA"]
  | "ko" => ["CN", "KP", "KR"]
  | "ms" => ["BN", "ID", "MY", "SG"]
  | "nb" => ["NO", "SJ"]
  | "nl" => ["AW", "BE", "BQ", "CW", "NL", "SR", "SX"]
  | "pt" => ["AO", "BR", "CH", "CV", "FR", "GQ", "GW", "LU", "MO", "MZ", "PT", "ST", "TL"]
  | "ro" => ["MD", "RO"]
  | "ru" => ["BY", "KG", "KZ", "MD", "RU", "UA"]
  | "sq" => ["AL", "MK", "XK"]
  | "sr" => ["BA", "ME", "RS", "XK"]
  | "sv" => ["AX", "FI", "SE"]
  | "sw" => ["CD", "KE", "TZ", "UG"]
  | "ta" => ["IN", "LK", "MY", "SG"]
  | "tr" => ["CY", "TR"]
  | "ur" => ["IN", "PK"]
  | "zh" => ["CN", "HK", "MO", "MY", "SG", "TW"]
  | "be" => ["BY"]
  | "bg" => ["BG"]
  | "br" => ["FR"]
  | "bs" => ["BA"]
  | "cs" => ["CZ"]
  | "cy" => ["GB"]
  | "et" => ["EE"]
  | "eu" => ["ES"]
  | "fa" => ["AF", "IR"]
  | "fi" => ["FI"]
  | "fil" => ["PH"]
  | "gl" => ["ES"]
  | "he" => ["IL"]
  | "hi" => ["IN"]
  | "hu" => ["HU"]
  | "hy" => ["AM"]
  | "id" => ["ID"]
  | "is" => ["IS"]
  | "ja" => ["JP"]
  | "ka" => ["GE"]
  | "kk" => ["CN", "KZ"]
  | "lt" => ["LT"]
  | "lv" => ["LV"]
  | "mk" => ["MK"]
  | "mt" => ["MT"]
  | "nn" => ["NO"]
  | "pl" => ["PL"]
  | "sk" => ["SK"]
  | "sl" => ["SI"]
  | "th" => ["TH"]
  | "uk" => ["UA"]
  | "vi" => ["VN"]
  | "yi" => ["UA"]
  | _ => []

/-- The locale with its current codes. The region `ZZ` is none, and an undetermined language is that of the region. -/
def canonical (l : Locale) : Locale :=
  let region := (l.region.map fun r => (regionAliases.lookup r).getD r).filter (· ≠ "ZZ")
  if l.language = "und" then { language := undeterminedLanguage region, region }
  else { language := (languageAliases.lookup l.language).getD l.language, region }

/-- The plural rules of a locale, if it is known. The root locale has none of its own. -/
def rules? (l : Locale) : Option Rules :=
  let l := l.canonical
  if l.language = "root" then some {}
  else match rulesOf? l.language, l.region with
    | none, _ => none
    | some rules, none => some rules
    | some rules, some region =>
      if !(regionsOf l.language).contains region then none
      else if l.language = "pt" && region ≠ "BR" then some portugueseOfEurope
      else some rules

end Locale

/-- The locales that are known here, with the rules of their languages. -/
def Repository.standard : Repository where
  form? identifier := ((Locale.ofText? identifier).bind Locale.rules?).map fun rules magnitude =>
    rules.select (Operands.ofMagnitude magnitude)

end Phrasebook.Plural
