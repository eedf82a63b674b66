import Phrasebook.Text.Blank
import Phrasebook.Text.Cut
import Phrasebook.Text.Digit

/-!
# Arguments

The command line takes files and options. An option may be shortened as long as one option alone begins like that, and
its value may follow it or stand behind an equals sign. The files stand together in one place.

* `Argument.classify` tells options from words, and `Request.ofArguments` reads a whole command line.
-/

namespace Phrasebook.CommandLine

/-- The options. -/
inductive Flag where
  | locale
  | format
  | maxDepth
  | verbose
  | help
  deriving DecidableEq, Repr

/-- The names of the options. -/
def Flag.names : List (String × Flag) :=
  [("-h", .help), ("--help", .help), ("--locale", .locale), ("--format", .format), ("--max-depth", .maxDepth),
    ("--verbose", .verbose)]

/-- An argument: a word, an option with a value behind an equals sign, or the mark behind which there are only words. -/
inductive Argument where
  | word (text : String)
  | flag (flag : Flag) (value : Option String)
  | unknown
  | divider
  deriving DecidableEq, Repr

namespace Argument

/-- Whether an argument is a number with a minus sign. -/
def isNegativeNumber : List Char → Bool
  | '-' :: cs =>
    (!cs.isEmpty && cs.all Text.isDigit) ||
      match Text.cutAt? '.' cs with
      | some (before, after) => before.all Text.isDigit && !after.isEmpty && after.all Text.isDigit
      | none => false
  | _ => false

/-- The options with a name that an argument is the beginning of. -/
def flagsFrom (start : List Char) : List Flag :=
  (Flag.names.filter fun (name, _) => start.isPrefixOf name.toList).map (·.2)

/-- The kind of an argument in front of the mark; nothing if it may be several options. -/
def ofText? (s : String) : Option Argument :=
  let cs := s.toList
  if s = "--" then some .divider
  else match Flag.names.lookup s with
    | some f => some (.flag f none)
    | none =>
      let (start, value) := match Text.cutAt? '=' cs with
        | some (start, value) => (start, some (String.ofList value))
        | none => (cs, none)
      let isLong := ['-', '-'].isPrefixOf cs
      let isOption := cs.head? = some '-' && 1 < cs.length
      match isOption, Flag.names.lookup (String.ofList start), value with
      | true, some f, some value => some (.flag f (some value))
      | _, _, _ =>
        match isLong, flagsFrom start with
        | true, [f] => some (.flag f value)
        | true, _ :: _ :: _ => none
        | _, _ =>
          -- short options may be joined, and there is only one
          if ['-', 'h'].isPrefixOf cs then some (.flag .help none)
          else if !isOption || isNegativeNumber cs || cs.contains ' ' then some (.word s)
          else some .unknown

/-- The kinds of some arguments. -/
def classify : List String → Option (List Argument)
  | [] => some []
  | s :: rest => do
    let argument ← ofText? s
    let arguments ← if argument = .divider then pure (rest.map .word) else classify rest
    return argument :: arguments

end Argument

/-- How a report is written. -/
inductive Style where
  | json
  | text
  deriving DecidableEq, Repr

/-- What is asked for on a command line. -/
structure Request where
  files : List String := []
  locale : Option String := none
  style : Style := .json
  maxDepth : Int := 10
  verbose : Bool := false
  deriving DecidableEq, Repr

/-- What a command line comes to: a request, a wish for help, or a mistake. -/
inductive Usage where
  | request (request : Request)
  | help
  | mistake
  deriving DecidableEq, Repr

/-- The whole number that a text stands for. -/
def intOfText? (s : String) : Option Int :=
  let cs := Text.trim s.toList
  let (negative, ds) := match cs with
    | '-' :: ds => (true, ds)
    | '+' :: ds => (false, ds)
    | ds => (false, ds)
  if !Text.isGrouped ds || Text.digitLimit < (ds.filter (· ≠ '_')).length then none
  else
    let n : Int := Text.numeral (ds.filter (· ≠ '_'))
    some (if negative then -n else n)

namespace Request

/-- Takes over the value of an option. -/
def setValue (r : Request) (value : String) : Flag → Option Request
  | .locale => some { r with locale := some value }
  | .format =>
    if value = "json" then some { r with style := .json }
    else if value = "text" then some { r with style := .text }
    else none
  | .maxDepth => (intOfText? value).map fun n => { r with maxDepth := n }
  | .verbose | .help => none

/-- Reads arguments one after the other. `placed` tells whether the place of the files is over, and `sound` whether
every argument so far can be used. -/
def read (r : Request) (placed sound : Bool) : List Argument → Usage
  | [] => if sound && !r.files.isEmpty then .request r else .mistake
  | .flag .help none :: _ => .help
  | .flag .verbose none :: rest => read { r with verbose := true } (!r.files.isEmpty) sound rest
  | .flag flag (some value) :: rest =>
    match r.setValue value flag with
    | some r => read r (!r.files.isEmpty) sound rest
    | none => .mistake
  | .flag flag none :: .word value :: rest =>
    match r.setValue value flag with
    | some r => read r (!r.files.isEmpty) sound rest
    | none => .mistake
  | .flag _ none :: _ => .mistake
  | .unknown :: rest => read r (!r.files.isEmpty) false rest
  | .word s :: rest => read { r with files := if placed then r.files else r.files ++ [s] } placed (sound && !placed) rest
  | .divider :: rest => read r placed (sound && !placed) rest

/-- Reads a command line. -/
def ofArguments (args : List String) : Usage :=
  match Argument.classify args with
  | some arguments => read {} false true arguments
  | none => .mistake

end Request

end Phrasebook.CommandLine
