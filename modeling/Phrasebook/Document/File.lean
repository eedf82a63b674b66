import Phrasebook.Folder
import Phrasebook.Ordered
import Phrasebook.Text.Lower

/-!
# Phrase files

A phrase file is a document with one table. Its suffix tells its format.

* `Folder.readTable` reads one file, and `Folder.readAll` some files, each for a locale.
* `representative` picks the phrase tree that stands for all locales.
-/

namespace Phrasebook

/-- The format of the files with a suffix. -/
def Format.ofSuffix? (suffix : String) : Option Format :=
  match suffix with
  | ".json" => some .json
  | ".yaml" | ".yml" => some .yaml
  | ".toml" => some .toml
  | _ => none

/-- The table of the document in a file. An empty document is an empty table. -/
def Parsers.readTable (p : Parsers) (format : Format) (path : String) (bytes : ByteArray) : Except Fault Table := do
  match ← p.read format bytes with
  | .table items => return items
  | .null => return []
  | v => throw (.notATable path v.typeName)

/-- The table in the file at a path, which is called `given` if it is absent. -/
def Folder.readTable (f : Folder) (path : FilePath) (given : String) : Except Fault Table :=
  match f.find? path with
  | none => .error (.absent given)
  | some node =>
    let suffix := String.ofList (Text.lower path.suffix)
    match Format.ofSuffix? suffix with
    | none => .error (.unsupported suffix)
    | some format =>
      match node with
      | .directory => .error (.directory path.toText)
      | .file bytes => f.parsers.readTable format path.toText bytes

/-- A file to read: where it is, how it is called, and the locale that it is for. -/
structure Source where
  path : FilePath
  given : String
  locale : String

/-- A source that is called as its path is given. -/
def Source.ofText (given locale : String) : Source := ⟨.ofText given, given, locale⟩

/-- The tables of some files by locale. Of several files for one locale the last one counts, and the first file that
cannot be read decides the fault. -/
def Folder.readAll (f : Folder) (workers : Option Int) (sources : List Source) :
    Except Fault (Ordered String Table) := do
  if workers.any (· ≤ 0) then throw .badWorkers
  sources.foldlM (fun tables source => do
    return tables.put source.locale (← f.readTable source.path source.given)) []

/-- What stands for all locales: that of the given locale, or else the first one. -/
def representative {α : Type} (locales : Ordered String α) : Option String → Except Fault α
  | some locale => match Ordered.get? locale locales with
    | some a => .ok a
    | none => .error (.unknownLocale locale)
  | none => match locales with
    | (_, a) :: _ => .ok a
    | [] => .error .noLocales

end Phrasebook
