import Phrasebook.Plural.Family
import Phrasebook.Template.Basic

/-!
# Contracts

The contract of a phrase says which parameters a call has to supply. An ordinary phrase asks for the parameters of its
text, as they are written there. A plural phrase asks for a count, which selects a variant, and for every other
parameter of any of its variants.

* `Contract.fields` are the names a call has to supply, and `Contract.missing` those that it does not.
* `Contract.ofGrouping` makes the contracts of all phrases and reports what is odd about their texts.
-/

namespace Phrasebook

/-- The name of the parameter that selects a plural variant. -/
def countName : String := "count"

/-- The count of a plural phrase: the names of its variants, and counts that are typical of them. -/
structure CountField where
  suffixes : List String
  hints : List Int := []
  deriving DecidableEq, Repr

/-- The contract of the phrase at a path. -/
structure Contract where
  key : String
  params : List String := []
  count : Option CountField := none
  deriving DecidableEq, Repr

namespace Contract

/-- Whether the phrase has plural variants. -/
def isPlural (c : Contract) : Bool := c.count.isSome

/-- The names that a call has to supply. -/
def fields (c : Contract) : List String := if c.isPlural then countName :: c.params else c.params

/-- Whether a call has to supply anything. -/
def requiresValues (c : Contract) : Bool := !c.fields.isEmpty

/-- The names that a call does not supply, and the count if it is not a number. -/
def missing (c : Contract) (values : Table) : List String :=
  c.fields.eraseDups.filter (fun name => !values.contains (.text name)) ++
    match values.get? (.text countName) with
    | some v => if c.isPlural && !v.isNumber then [countName] else []
    | none => []

/-- The names in some lists, each once in order of first appearance, without the count. -/
def mergeParams (variants : List (List String)) : List String := (variants.flatten.filter (· ≠ countName)).eraseDups

/-- Reads the template of the value at a path and reports what is odd about it. -/
def inspect (limit : Int) (path : String) (value : Value) : Audit Template := do
  let template ← Audit.ofExcept (Template.ofValue path limit value)
  Audit.report (template.findings path)
  return template

/-- The contract of a family. -/
def ofFamily (limit : Int) (base : String) (variants : Plural.Variants) : Audit Contract := do
  let templates ← variants.mapM fun (category, value) => inspect limit (Plural.variantPath base category) value
  return { key := base
           params := mergeParams (templates.map Template.params)
           count := some
             { suffixes := variants.map (·.1.name)
               hints := (Plural.Category.hintsOf (variants.map (·.1))).map Int.ofNat } }

/-- The contract of the phrase at a key. -/
def ofKey (limit : Int) (g : Plural.Grouping) (key : String) : Audit Contract :=
  match g.families.get? key with
  | some variants => ofFamily limit key variants
  | none => do
    let template ← inspect limit key ((g.ordinary.get? key).getD .null)
    return { key, params := template.params }

/-- The contracts of all phrases in their order. -/
def ofGrouping (limit : Int) (g : Plural.Grouping) : Audit (Ordered String Contract) :=
  g.keys.mapM fun key => do return (key, ← ofKey limit g key)

end Contract

end Phrasebook
