import Phrasebook.CommandLine.Arguments
import Phrasebook.CommandLine.Report
import Phrasebook.Document.File

/-!
# The command line

The files of a request are read, each for the locale that its name without suffix tells, and a report is written on the
phrase tree of one locale.

* `Request.run` carries a request out, and `run` a command line.
* Most faults end in a notice and the exit code 1, but some are not got over (`escapes`): that a YAML document cannot be
  read is one of them.
-/

namespace Phrasebook.CommandLine

/-- Something to log: a finding, or the fault that ended a run. -/
inductive Notice where
  | finding (finding : Finding)
  | failure (fault : Fault)

/-- How a run ends: its exit code, what it prints and what is to be logged. A fault that is not got over has no exit
code. -/
structure Ending where
  exit : Except Fault Nat
  output : String := ""
  notices : List Notice := []

/-- Whether a fault is not got over. -/
def escapes : Fault → Bool
  | .malformed .yaml | .notANumber _ _ | .noMagnitude _ | .unhashable _ | .infiniteCount | .unforeseen _ => true
  | _ => false

/-- What a program is run on: calls can be nested only so deep, and the console may lack characters. -/
structure Machine where
  /-- whether the analysis of a tree nests calls too deep -/
  exhausted : Options → Table → Bool := fun _ _ => false
  /-- whether a text can be printed -/
  canPrint : String → Bool := fun _ => true

/-- The faults of a machine. -/
def Machine.tooDeep : Fault := .unforeseen "RecursionError"

def Machine.unprintable : Fault := .unforeseen "UnicodeEncodeError"

/-- The catalog of a tree, if the machine is not exhausted before. -/
def Machine.analyse (m : Machine) (options : Options) (tree : Table) : Audit Catalog :=
  if m.exhausted options tree then Audit.ofExcept (.error tooDeep) else Catalog.ofTable options tree

/-- The report on a catalog. -/
def Style.render (catalog : Catalog) : Style → String
  | .json => Json.write catalog.toValue ++ "\n"
  | .text => "\n".intercalate catalog.toLines ++ "\n"

namespace Request

/-- The files of a request. -/
def sources (r : Request) : List Source :=
  r.files.map fun file =>
    let path := FilePath.ofText file
    ⟨path, path.toText, path.stem⟩

/-- How a request wants phrase trees to be analysed. -/
def options (r : Request) : Options := { maxDepth := r.maxDepth, verbose := r.verbose }

/-- The catalog that a request asks for. -/
def catalog (r : Request) (folder : Folder) (machine : Machine := {}) : Audit Catalog := do
  let trees ← Audit.ofExcept (folder.readAll none r.sources)
  let tree ← Audit.ofExcept (representative trees r.locale)
  machine.analyse r.options tree

/-- Carries out a request on the files of a folder. Nothing is printed of a text that has a character too many. -/
def run (r : Request) (folder : Folder) (machine : Machine := {}) : Ending :=
  let audit := r.catalog folder machine
  let notices := (r.options.logged audit.findings).map Notice.finding
  match audit.outcome with
  | .ok catalog =>
    let document := r.style.render catalog
    if machine.canPrint document then { exit := .ok 0, output := document, notices }
    else { exit := .error Machine.unprintable, notices }
  | .error fault =>
    if escapes fault then { exit := .error fault, notices }
    else { exit := .ok 1, notices := notices ++ [.failure fault] }

end Request

/-- How the program is called. -/
def usage : String :=
  "usage: phrasebook [-h] [--locale LOCALE] [--format json|text] [--max-depth MAX_DEPTH] [--verbose] files..."

/-- Carries out a command line on the files of a folder. -/
def run (folder : Folder) (args : List String) (machine : Machine := {}) : Ending :=
  match Request.ofArguments args with
  | .request r => r.run folder machine
  | .help => { exit := .ok 0, output := usage ++ "\n" }
  | .mistake => { exit := .ok 2 }

/-- The line of a notice in a log. -/
def Notice.line (describe : Fault → String) : Notice → String
  | .finding f => "WARNING: " ++ f.summary
  | .failure fault => "ERROR: " ++ describe fault

end Phrasebook.CommandLine
