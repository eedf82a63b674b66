import Phrasebook.Finding
import Phrasebook.Template.Cuts
import Phrasebook.Template.Directive

/-!
# Templates

A text is either a plural directive or a text with placeholders. Either way it has parameters, the names in its
placeholders; a directive adds the parameter that selects a clause, and has the placeholders of all its clauses.

* `Template.ofText` never refuses a text; `Template.ofValue` refuses one that is too long.
* `Template.findings` are the oddities of a template.
* `Template.fill` writes a value with the parameters that are given.
-/

namespace Phrasebook

/-- What a text asks for. -/
structure Template where
  /-- the names of the parameters in order of appearance, repeated as they are -/
  params : List String := []
  directive : Option Template.Directive := none
  /-- whether the text is not a directive but looks like one -/
  nearDirective : Bool := false
  /-- the number of placeholders without a name -/
  blanks : Nat := 0
  deriving DecidableEq

namespace Template

/-- The template of a directive. -/
def ofDirective (d : Directive) : Template :=
  let cuts := d.clauses.map fun clause => Cuts.ofText clause.content
  { params := String.ofList d.parameter :: cuts.flatMap Cuts.names
    directive := some d
    blanks := (cuts.flatMap Cuts.slots).countP (·.2.isEmpty) }

/-- The template of a text. -/
def ofText (text : String) : Template :=
  match Directive.ofText? text.toList with
  | some d => ofDirective d
  | none =>
    let cuts := Cuts.ofText text.toList
    { params := cuts.names, nearDirective := resemblesDirective text.toList, blanks := cuts.blanks }

/-- The template of the value at a path; only a text has parameters. -/
def ofValue (path : String) (limit : Int) : Value → Except Fault Template
  | .text s => if limit < s.length then .error (Fault.tooLong path s.length limit).told else .ok (ofText s)
  | _ => .ok {}

/-- The names that were there before, each time they come again. -/
def comesAgain (seen : List String) : List String → List String
  | [] => []
  | name :: names =>
    if name ∈ seen then name :: comesAgain seen names else comesAgain (name :: seen) names

/-- The parameters that are named more than once, in the order in which they first come again. -/
def repeated (t : Template) : List String := (comesAgain [] t.params).eraseDups

/-- What is odd about the template of the value at a path. -/
def findings (path : String) (t : Template) : List Finding :=
  (if t.nearDirective then [.nearDirective path] else []) ++
    (if t.blanks = 0 then [] else [.blankPlaceholders path t.blanks]) ++
    t.repeated.map (.repeatedParameter path)

/-- A text with its placeholders filled. -/
def fillText (values : Table) (text : List Char) : Except Fault String :=
  match (Cuts.ofText text).fill values with
  | some filled => .ok (String.ofList filled)
  | none => .error .unwritable

/-- The text of a value with the given parameters: a directive is written as the clause for its parameter. -/
def fill (values : Table) : Value → Except Fault String
  | .text s =>
    match (ofText s).directive with
    | none => fillText values s.toList
    | some d =>
      let parameter := String.ofList d.parameter
      let count := (values.get? (.text parameter)).getD .null
      if count.isNumber then do
        match ← d.select count with
        | some clause => fillText values clause.content
        | none => return ""
      else .error (Fault.notANumber parameter count).told
  | v => match v.shown? with
    | some text => .ok text
    | none => .error .unwritable

end Template

end Phrasebook
