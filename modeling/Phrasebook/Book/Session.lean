import Phrasebook.Book.Get
import Phrasebook.Document.File

/-!
# Sessions with a phrase book

A session is a phrase book in use beside a folder of phrase files, which may be written in the meantime.

* `Book.loadFile` and `Book.loadFiles` load what is in the files of a folder.
* `Session.start` begins a session, `Session.run` carries out one step, and `Session.after` is what some steps lead to.
-/

namespace Phrasebook

namespace Book

/-- Loads the phrase tree in a file. -/
def loadFile (b : Book) (folder : Folder) (source : Source) : Except Fault Book := do
  b.load source.locale (← folder.readTable source.path source.given)

/-- Reads some files and then loads their phrase trees. Nothing is loaded if one of the files cannot be read. -/
def loadFiles (b : Book) (folder : Folder) (workers : Option Int) (sources : List Source) : Book × Except Fault Unit :=
  match folder.readAll workers sources with
  | .ok trees => b.loadAll trees
  | .error fault => (b, .error fault)

end Book

/-- A phrase book and the files beside it. -/
structure Session where
  book : Book
  folder : Folder := {}

namespace Session

/-- What a book holds of its default locale at first. -/
inductive Opening where
  | nothing
  | tree (tree : Table)
  | file (path : FilePath)

/-- What can be done in a session. -/
inductive Step where
  /-- asks for the text of a phrase -/
  | get (key : String) (locale : Option String) (values : Table) (scope : Option String)
  /-- loads a phrase tree for a locale -/
  | loadTree (locale : String) (tree : Table)
  /-- loads the phrase tree in a file -/
  | loadFile (source : Source)
  /-- loads the phrase trees in some files -/
  | loadFiles (sources : List Source)
  /-- puts a file or a directory into the folder -/
  | write (path : FilePath) (node : Node)
  /-- changes the default locale -/
  | setDefault (locale : String)
  /-- asks for the default locale -/
  | defaultLocale
  /-- asks for the locales -/
  | locales
  /-- asks for the catalog that calls are held to -/
  | catalog

/-- What a step answers. -/
inductive Answer where
  | done
  | text (text : String)
  | locales (locales : List String)
  | issue (issue : Issue)

/-- Begins a session with a new book that remembers a number of texts. -/
def start (folder : Folder) (defaultLocale : String) (options : Options) (capacity : Int) (opening : Opening)
    (repository : Plural.Repository := .standard) : Except Fault Session := do
  let book ← Book.ofCapacity defaultLocale options capacity repository
  match opening with
  | .nothing => return { book, folder }
  | .tree tree => return { book := ← book.load defaultLocale tree, folder }
  | .file path => return { book := ← book.loadFile folder ⟨path, path.toText, defaultLocale⟩, folder }

/-- The session with a new state of its book; it stays as it was if there is none. -/
def settle (s : Session) : Except Fault Book → Session × Reply Answer
  | .ok book => ({ s with book }, { outcome := .ok .done })
  | .error fault => (s, { outcome := .error fault })

/-- Carries out a step. -/
def run (s : Session) : Step → Session × Reply Answer
  | .get key locale values scope =>
    let (book, reply) := s.book.get key locale values scope
    ({ s with book }, { notices := reply.notices, outcome := reply.outcome.map .text })
  | .loadTree locale tree => s.settle (s.book.load locale tree)
  | .loadFile source => s.settle (s.book.loadFile s.folder source)
  | .loadFiles sources =>
    let (book, outcome) := s.book.loadFiles s.folder none sources
    ({ s with book }, { outcome := outcome.map fun _ => .done })
  | .write path node => ({ s with folder := s.folder.put path node }, { outcome := .ok .done })
  | .setDefault locale => s.settle (.ok (s.book.withDefault locale))
  | .defaultLocale => (s, { outcome := .ok (.text s.book.defaultLocale) })
  | .locales => (s, { outcome := .ok (.locales s.book.locales) })
  | .catalog =>
    let (book, audit) := s.book.catalog
    ({ s with book }, { notices := book.noticesOf audit.findings, outcome := audit.outcome.map .issue })

/-- The session that some steps lead to. -/
def after (s : Session) (steps : List Step) : Session := steps.foldl (fun s step => (s.run step).1) s

end Session

end Phrasebook
