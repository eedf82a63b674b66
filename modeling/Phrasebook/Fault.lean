import Phrasebook.Value.Display

/-!
# Faults

Everything that can go wrong, as causes. `Fault.message` is the one place that words them.

A fault about a name that is looked up is *keyed*: a log shows its message in quotes (`Fault.logged`). A message quotes
the numbers that a fault is about; where one of them cannot be written, that is the fault that is met (`Fault.told`).
-/

namespace Phrasebook

/-- The formats of a phrase file. -/
inductive Format where
  | json
  | yaml
  | toml
  deriving DecidableEq, Repr

/-- The name of a format. -/
def Format.name : Format → String
  | .json => "JSON"
  | .yaml => "YAML"
  | .toml => "TOML"

/-- The file suffixes that are read. -/
def Format.suffixes : List String := [".json", ".yaml", ".yml", ".toml"]

/-- What went wrong. -/
inductive Fault where
  /-- a key is not a text, is empty or holds a dot -/
  | badKey (key : Value) (path : String)
  /-- a value is not a phrase -/
  | badValue (typeName path : String)
  /-- tables are nested below the limit -/
  | tooDeep (path : String) (limit : Int)
  /-- a key is both a phrase and a family of plural variants -/
  | clash (key : String)
  /-- a phrase is longer than the limit -/
  | tooLong (path : String) (length : Nat) (limit : Int)
  /-- no phrase has the path -/
  | unknownKey (path : String)
  /-- the locale is not loaded -/
  | unknownLocale (locale : String)
  /-- no locale is loaded -/
  | noLocales
  /-- a call does not supply what the phrase needs -/
  | missing (path : String) (names : List String)
  /-- no plural variant fits the count -/
  | noVariant (path : String) (count : Value) (locale : String)
  /-- the locale has no text at the path -/
  | noText (path locale : String)
  /-- the name is not one of a plural category -/
  | unknownCategory (name : String)
  /-- the parameter that selects a clause is not a number -/
  | notANumber (parameter : String) (given : Value)
  /-- a value has no magnitude -/
  | noMagnitude (typeName : String)
  /-- a value cannot be remembered -/
  | unhashable (typeName : String)
  /-- a number in a selector or in a document has too many digits -/
  | tooManyDigits (count : Nat)
  /-- a number cannot be written, since that would take too many digits -/
  | unwritable
  /-- an infinity has no whole part -/
  | infiniteCount
  /-- what is not a number has no whole part -/
  | nanCount
  /-- a store must have room for something -/
  | badCapacity
  /-- files must be read by somebody -/
  | badWorkers
  /-- the file does not exist -/
  | absent (path : String)
  /-- the suffix of the file belongs to no format -/
  | unsupported (suffix : String)
  /-- the document in the file is not a table -/
  | notATable (path typeName : String)
  /-- the file is a directory -/
  | directory (path : String)
  /-- the octets of the file are not UTF-8 -/
  | undecodable
  /-- the document breaks the rules of its format -/
  | malformed (format : Format)
  /-- a date or a time in a document is out of range -/
  | misfit (field : Calendar.Misfit)
  /-- something that nothing here reckons with, by the name of its kind -/
  | unforeseen (kind : String)

namespace Fault

/-- The text of a fault. -/
def message : Fault → String
  | badKey key path => s!"Invalid key {key.quoted} at '" ++ path ++ "': keys must be non-empty strings without '.'"
  | badValue typeName path => s!"Unsupported value of type {typeName} at '" ++ path ++ "'"
  | tooDeep path limit => "Locale nesting at '" ++ path ++ s!"' exceeds the maximum depth of {limit}"
  | clash key => "Key '" ++ key ++ "' is defined both as a plain entry and as a plural group"
  | tooLong path length limit => "Value at '" ++ path ++ s!"' has {length} characters, the limit is {limit}"
  | unknownKey path => "Translation key '" ++ path ++ "' is not defined"
  | unknownLocale locale => "Locale '" ++ locale ++ "' not found in locales"
  | noLocales => "No locales loaded"
  | missing path names => "Missing or invalid parameters for '" ++ path ++ "': " ++ ", ".intercalate names
  | noVariant path count locale =>
    "No plural variant of '" ++ path ++ s!"' for count {count.plain} in locale '" ++ locale ++ "'"
  | noText path locale => "Translation key '" ++ path ++ "' not found in locale '" ++ locale ++ "'"
  | unknownCategory name => name
  | notANumber parameter given => "Plural parameter '" ++ parameter ++ s!"' must be a number, got {given.quoted}"
  | noMagnitude typeName => "bad operand type for abs(): '" ++ typeName ++ "'"
  | unhashable typeName => "unhashable type: '" ++ typeName ++ "'"
  | tooManyDigits count =>
    s!"Exceeds the limit (4300 digits) for integer string conversion: value has {count} digits; " ++
      "use sys.set_int_max_str_digits() to increase the limit"
  | unwritable =>
    "Exceeds the limit (4300 digits) for integer string conversion; " ++
      "use sys.set_int_max_str_digits() to increase the limit"
  | infiniteCount => "cannot convert float infinity to integer"
  | nanCount => "cannot convert float NaN to integer"
  | badCapacity => "cache_max_size must be a positive integer"
  | badWorkers => "max_workers must be greater than 0"
  | absent path => "Locale file not found: " ++ path
  | unsupported suffix =>
    "Unsupported file format: " ++ suffix ++ ". Supported formats: " ++ ", ".intercalate Format.suffixes
  | notATable path typeName => s!"Locale file {path} must contain a mapping, got {typeName}"
  | directory path => "Is a directory: '" ++ path ++ "'"
  | undecodable => "The file is not UTF-8"
  | malformed format => s!"The file is not a {format.name} document"
  | misfit field => field.message
  | unforeseen kind => kind

/-- Whether every number in the text of a fault has few enough digits to be written. -/
def isWritable : Fault → Bool
  | badKey key _ => key.isWritable
  | tooDeep _ limit => (Value.int limit).isWritable
  | tooLong _ length limit => (Value.int length).isWritable && (Value.int limit).isWritable
  | noVariant _ count _ => count.isWritable
  | notANumber _ given => given.isWritable
  | _ => true

/-- The fault that is met: the text of a fault is written at once, and that may be a fault itself. -/
def told (fault : Fault) : Fault := if fault.isWritable then fault else unwritable

theorem told_eq_self {fault : Fault} (h : fault.isWritable = true) : fault.told = fault := if_pos h

theorem told_eq_unwritable {fault : Fault} (h : fault.isWritable = false) : fault.told = unwritable :=
  if_neg (Bool.eq_false_iff.1 h)

/-- What holds of a fault and of a number that cannot be written holds of the fault that is met. -/
theorem told_of {p : Fault → Prop} {fault : Fault} (h : p fault) (hu : p unwritable) : p fault.told := by
  unfold told
  split
  · exact h
  · exact hu

/-- Whether a fault is about a name that was looked up. -/
def isKeyed : Fault → Bool
  | unknownKey _ | unknownLocale _ | noLocales | missing _ _ | noVariant _ _ _ | noText _ _ | unknownCategory _ => true
  | _ => false

/-- Whether a fault is about a value that is of the right type and will not do. -/
def isOfValue : Fault → Bool
  | badKey _ _ | tooDeep _ _ | clash _ | tooLong _ _ _ | tooManyDigits _ | unwritable | nanCount | badCapacity
  | badWorkers | unsupported _ | notATable _ _ | undecodable | malformed .json | malformed .toml | misfit _ => true
  | _ => false

/-- The text of a fault in a log. -/
def logged (fault : Fault) : String := if fault.isKeyed then Text.quote fault.message else fault.message

end Fault

end Phrasebook
