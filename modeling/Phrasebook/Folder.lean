import Phrasebook.Document.Parsers
import Phrasebook.Text.Cut

/-!
# Folders

A folder holds files, which are octets at a path, and directories, which are the folders on the way to the files. With
it come the parsers that read what the files hold.

* `FilePath.ofText` reads a path and leaves out what does not matter in it; `FilePath.suffix` and `FilePath.stem` are
  the parts of its name.
* `Folder.find?` looks up what is at a path.
-/

namespace Phrasebook

/-! ## Paths of files -/

/-- A path: the slashes before it, and its parts, of which none is empty or a dot. -/
structure FilePath where
  root : String
  parts : List String
  deriving DecidableEq, Repr

namespace FilePath

/-- The root that a number of slashes stands for: two are a root of their own, and more are like one. -/
def rootOf : Nat → String
  | 0 => ""
  | 2 => "//"
  | _ => "/"

/-- Reads a path. -/
def ofText (s : String) : FilePath :=
  { root := rootOf (s.toList.takeWhile (· = '/')).length
    parts := ((Text.fields '/' s.toList).map String.ofList).filter fun part => part ≠ "" && part ≠ "." }

/-- The text of a path. -/
def toText (p : FilePath) : String :=
  let path := p.root ++ String.ofList (Text.join '/' (p.parts.map String.toList))
  if path = "" then "." else path

/-- The last part of a path. -/
def name (p : FilePath) : String := (p.parts.getLast?).getD ""

/-- The name of a file cut before its last dot, unless that is the first or the last character. -/
def nameParts (p : FilePath) : List Char × List Char :=
  match Text.cutAtLast? '.' p.name.toList with
  | some (stem, suffix) => if stem = [] || suffix = [] then (p.name.toList, []) else (stem, '.' :: suffix)
  | none => (p.name.toList, [])

/-- The name of a file without its suffix. -/
def stem (p : FilePath) : String := String.ofList p.nameParts.1

/-- The suffix of a file with its dot. -/
def suffix (p : FilePath) : List Char := p.nameParts.2

end FilePath

/-! ## What is in a folder -/

/-- What is at a path: a file with its octets, or a directory. -/
inductive Node where
  | file (bytes : ByteArray)
  | directory

/-- The files and directories of a folder, and the parsers for the files. -/
structure Folder where
  items : List (FilePath × Node) := []
  parsers : Parsers := .standard

namespace Folder

/-- What is at the end of a row of names without detours. -/
def nodeAt? (f : Folder) (parts : List String) : Option Node :=
  match f.items.find? fun item => item.1.parts = parts with
  | some (_, node) => some node
  | none => if f.items.any fun item => parts.isPrefixOf item.1.parts then some .directory else none

/-- Walks along the parts of a path from the directory `here`, of which the last name comes first. -/
def walk (f : Folder) (here : List String) : List String → Option Node
  | [] => if here.isEmpty then some .directory else f.nodeAt? here.reverse
  | part :: parts =>
    match (if here.isEmpty then some .directory else f.nodeAt? here.reverse) with
    | some .directory =>
      if part = ".." then (match here with
        | [] => if parts.all (· = "..") then some .directory else none
        | _ :: up => walk f up parts)
      else walk f (part :: here) parts
    | _ => none

/-- What is at a path. Of what lies outside, only the directories above the folder are known and what the folder holds
under the very path. -/
def find? (f : Folder) (p : FilePath) : Option Node :=
  match f.items.find? (·.1 = p) with
  | some (_, node) => some node
  | none => if p.root ≠ "" then (if p.parts.isEmpty then some .directory else none) else f.walk [] p.parts

/-- Puts something at a path in place of what is there. -/
def put (f : Folder) (p : FilePath) (node : Node) : Folder :=
  { f with items := f.items.filter (fun item => item.1 ≠ p) ++ [(p, node)] }

end Folder

end Phrasebook
