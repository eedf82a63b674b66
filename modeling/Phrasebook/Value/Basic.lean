import Phrasebook.Calendar
import Phrasebook.Number.Binary64

/-!
# Values

A value is what a phrase file can hold or a caller can pass: nothing, a truth value, a number, a text, a date, a moment,
a time of the day, octets, a list, or a table from values to values that keeps the order of its items.

* A *leaf* (`Value.isLeaf`) is a value that a phrase may be.
* `Value.agrees` is the equality that tables use for their keys.
* `Table.get?`, `Table.set` and `Table.ofList` are the operations of a table.
-/

namespace Phrasebook

/-- A value. -/
inductive Value where
  | null
  | bool (b : Bool)
  | int (n : Int)
  | float (x : Binary64)
  | text (s : String)
  | date (d : Calendar.Date)
  | moment (m : Calendar.Moment)
  | clock (t : Calendar.Clock)
  | bytes (bs : List UInt8)
  | list (vs : List Value)
  | table (items : List (Value × Value))

instance : Inhabited Value := ⟨.null⟩

/-- The items of a table in their order. -/
abbrev Table := List (Value × Value)

namespace Value

/-- The word for the kind of a value. -/
def typeName : Value → String
  | null => "NoneType"
  | bool _ => "bool"
  | int _ => "int"
  | float _ => "float"
  | text _ => "str"
  | date _ => "date"
  | moment _ => "datetime"
  | clock _ => "time"
  | bytes _ => "bytes"
  | list _ => "list"
  | table _ => "dict"

/-- Whether a value may be a phrase. -/
def isLeaf : Value → Bool
  | clock _ | bytes _ | list _ | table _ => false
  | _ => true

/-- Whether a value may be a count: a number, but not a truth value. -/
def isNumber : Value → Bool
  | int _ | float _ => true
  | _ => false

/-- The items of a table. -/
def items? : Value → Option Table
  | table items => some items
  | _ => none

/-- Equality of two values that are not lists or tables. Truth values count as numbers, and numbers are compared
exactly; a moment agrees with one at the same instant. -/
def agreesAsScalar : Value → Value → Bool
  | null, null => true
  | bool a, bool b => a = b
  | bool a, int n | int n, bool a => n = a.toInt
  | bool a, float x | float x, bool a => x.toInt? = some a.toInt
  | int n, int k => n = k
  | int n, float x | float x, int n => x.toInt? = some n
  | float x, float y => x.same y
  | text s, text t => s = t
  | date a, date b => a = b
  | moment a, moment b => a.sameInstant b
  | clock a, clock b => a = b
  | bytes a, bytes b => a = b
  | _, _ => false

section

variable (scalar : Value → Value → Bool)

mutual

/-- Equality of values under an equality of scalars: lists item by item, tables key by key in any order. -/
def agreesBy : Value → Value → Bool
  | list vs, list ws => agreesAllBy vs ws
  | table items, table others => items.length = others.length && agreesItemsBy items others
  | v, w => scalar v w

/-- Equality of lists of values. -/
def agreesAllBy : List Value → List Value → Bool
  | [], [] => true
  | v :: vs, w :: ws => agreesBy v w && agreesAllBy vs ws
  | _, _ => false

/-- Whether each of the items is found in a table with an equal value. -/
def agreesItemsBy : List (Value × Value) → List (Value × Value) → Bool
  | [], _ => true
  | (k, v) :: items, others =>
    (match others.find? fun other => agreesBy k other.1 with
      | some other => agreesBy v other.2
      | none => false) && agreesItemsBy items others

end

end

/-- Equality of values, as tables use it for their keys. -/
def agrees : Value → Value → Bool := agreesBy agreesAsScalar

/-- Equality of values that share their parts: what is not a number equals itself here. -/
def sameAs : Value → Value → Bool := agreesBy fun
  | float x, float y => x.same y || (x.isNan && y.isNan)
  | v, w => v.agreesAsScalar w

end Value

namespace Table

/-- The value at a key. -/
def get? (items : Table) (key : Value) : Option Value := (items.find? fun item => key.agrees item.1).map (·.2)

/-- Whether a table has a key. -/
def contains (items : Table) (key : Value) : Bool := (items.get? key).isSome

/-- Puts a value at a key. A key that is there already keeps its place and its spelling. -/
def set (key value : Value) : Table → Table
  | [] => [(key, value)]
  | (k, v) :: items => if key.agrees k then (k, value) :: items else (k, v) :: set key value items

/-- The table of a list of items, of which a later one replaces the value of an earlier one with an equal key. -/
def ofList (items : List (Value × Value)) : Table := items.foldl (fun t item => set item.1 item.2 t) []

end Table

end Phrasebook
