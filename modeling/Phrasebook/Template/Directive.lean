import Phrasebook.Fault
import Phrasebook.Text.Blank
import Phrasebook.Text.Cut

/-!
# Plural directives

A directive is a whole text that names a parameter and gives two or three clauses, each with a selector and a content:
`{n, plural, =0 {nothing} other {{n} things}}`. A content may hold braces as long as they are balanced.

* `Directive.render` writes a directive, and `Directive.ofText?` reads exactly what it writes.
* `Directive.select` picks the first clause whose number is the count, else the first one for all others.
-/

namespace Phrasebook.Template

/-- What a clause is for: one number, written with the given digits, or every other count. -/
inductive Selector where
  | exact (negative : Bool) (digits : List Char)
  | other
  deriving DecidableEq

/-- A clause of a directive. -/
structure Clause where
  selector : Selector
  content : List Char
  deriving DecidableEq

/-- A plural directive. -/
structure Directive where
  parameter : List Char
  clauses : List Clause
  deriving DecidableEq

/-- The text between the parameter and the first clause. -/
def Directive.mark : List Char := ", plural, ".toList

/-! ## Writing -/

/-- A selector as it is written. -/
def Selector.render : Selector → List Char
  | .exact negative digits => '=' :: (if negative then ['-'] else []) ++ digits
  | .other => "other".toList

/-- A clause as it is written. -/
def Clause.render (c : Clause) : List Char := c.selector.render ++ [' ', '{'] ++ c.content ++ ['}']

/-- A directive as it is written. -/
def Directive.render (d : Directive) : List Char :=
  '{' :: d.parameter ++ Directive.mark ++ Text.join ' ' (d.clauses.map Clause.render) ++ ['}']

/-! ## Reading -/

/-- Reads a selector off the front of a text: a row of digits is read as far as it goes. -/
def cutSelector? : List Char → Option (Selector × List Char)
  | '=' :: cs =>
    let (negative, cs) := match cs with
      | '-' :: cs => (true, cs)
      | cs => (false, cs)
    let digits := cs.takeWhile Text.isDigit
    if digits.isEmpty then none else some (.exact negative digits, cs.dropWhile Text.isDigit)
  | 'o' :: 't' :: 'h' :: 'e' :: 'r' :: cs => some (.other, cs)
  | _ => none

/-- The number of characters before the brace that closes a block in which `depth` braces are still open. -/
def closingBrace? : Nat → List Char → Option Nat
  | _, [] => none
  | depth, c :: cs =>
    if c = '{' then (closingBrace? (depth + 1) cs).map (· + 1)
    else if c = '}' then
      match depth with
      | 0 => some 0
      | depth + 1 => (closingBrace? depth cs).map (· + 1)
    else (closingBrace? depth cs).map (· + 1)

/-- Reads a clause off the front of a text. -/
def cutClause? (cs : List Char) : Option (Clause × List Char) :=
  match cutSelector? cs with
  | some (selector, ' ' :: '{' :: cs) => (closingBrace? 0 cs).map fun n => (⟨selector, cs.take n⟩, cs.drop (n + 1))
  | _ => none

/-- Reads a whole text as clauses with a space between them, at most as many as the fuel allows. -/
def clausesOf? : Nat → List Char → Option (List Clause)
  | 0, _ => none
  | fuel + 1, cs =>
    match cutClause? cs with
    | some (clause, []) => some [clause]
    | some (clause, ' ' :: rest) => (clausesOf? fuel rest).map (clause :: ·)
    | _ => none

/-- Reads a whole text as a directive. -/
def Directive.ofText? (text : List Char) : Option Directive :=
  match text with
  | '{' :: rest =>
    if rest.getLast? ≠ some '}' then none
    else match Text.cutAround? Directive.mark rest.dropLast with
      | none => none
      | some (parameter, body) =>
        if parameter.isEmpty || parameter.contains '{' || parameter.contains '}' then none
        else match clausesOf? 3 body with
          | some (first :: second :: more) => some ⟨parameter, first :: second :: more⟩
          | _ => none
  | _ => none

/-! ## Selecting -/

/-- The first clause whose number is the count. A number with too many digits is found out when its turn comes. -/
def firstExact (count : Value) : List Clause → Except Fault (Option Clause)
  | [] => .ok none
  | clause :: clauses =>
    match clause.selector with
    | .other => firstExact count clauses
    | .exact negative digits =>
      if Text.digitLimit < digits.length then .error (.tooManyDigits digits.length)
      else
        let n : Int := Text.numeral digits
        if count.agrees (.int (if negative then -n else n)) then .ok (some clause) else firstExact count clauses

/-- The clause for a count: the first with its number, else the first for all others. -/
def Directive.select (d : Directive) (count : Value) : Except Fault (Option Clause) := do
  match ← firstExact count d.clauses with
  | some clause => return some clause
  | none => return d.clauses.find? (·.selector = .other)

/-! ## Look-alikes -/

/-- Whether a text begins like the mark of a directive, with any white space in it. -/
def startsLikeMark : List Char → Bool
  | ',' :: cs =>
    match Text.after? "plural".toList (cs.dropWhile Text.isBlank) with
    | some cs => (cs.dropWhile Text.isBlank).head? = some ','
    | none => false
  | _ => false

/-- Whether the run without braces that a text begins with holds something like the mark of a directive. -/
def runHoldsMark : List Char → Bool
  | [] => false
  | c :: cs => c ≠ '{' && c ≠ '}' && (startsLikeMark (c :: cs) || runHoldsMark cs)

/-- Whether the run without braces behind some opening brace holds something like the mark of a directive. -/
def resemblesDirective : List Char → Bool
  | [] => false
  | c :: cs => (c = '{' && runHoldsMark cs) || resemblesDirective cs

end Phrasebook.Template
