import Phrasebook.Calendar
import Phrasebook.Document.Yaml.Node
import Phrasebook.Fault
import Phrasebook.Number.Decimal

/-!
# The values of a YAML document

What a plain scalar stands for is seen from its form: nothing, a truth value, a number, a date or a moment, and else its
text. A quoted scalar always stands for its text.

* `resolve` gives the value of a plain scalar.
* `Node.value` gives the value of a node. Keys must not be lists or tables, and the items of a table under a merge key
  come before the others.
-/

namespace Phrasebook.Yaml

/-! ## Whole numbers -/

/-- Whether a text consists of one or more characters of a kind. -/
def isRow (p : Char → Bool) (cs : List Char) : Bool := !cs.isEmpty && cs.all p

/-- The text without underscores. -/
def plainDigits (cs : List Char) : List Char := cs.filter (· ≠ '_')

/-- Whether a text begins with a digit and goes on with digits and underscores. -/
def isSpacedDigits (first : Char → Bool) : List Char → Bool
  | [] => false
  | c :: cs => first c && cs.all fun c => c.isDigit || c = '_'

/-- Whether a field behind a colon is a number below sixty. -/
def isSixty : List Char → Bool
  | [a] => a.isDigit
  | [a, b] => '0' ≤ a && a ≤ '5' && b.isDigit
  | _ => false

/-- The whole number in base sixty that some fields make up. -/
def sexagesimal (fields : List (List Char)) : Nat :=
  fields.foldl (fun n field => 60 * n + Text.numeral (plainDigits field)) 0

/-- Reads a magnitude: in base two, eight, ten, sixteen or sixty. -/
def magnitude? (cs : List Char) : Option Nat :=
  match cs with
  | ['0'] => some 0
  | '0' :: 'b' :: ds =>
    if isRow (fun c => c = '0' || c = '1' || c = '_') ds then some (Text.numeralIn 2 (plainDigits ds)) else none
  | '0' :: 'x' :: ds =>
    if isRow (fun c => Text.isHexDigit c || c = '_') ds then some (Text.numeralIn 16 (plainDigits ds)) else none
  | '0' :: ds =>
    if isRow (fun c => ('0' ≤ c && c ≤ '7') || c = '_') ds then some (Text.numeralIn 8 (plainDigits ds)) else none
  | cs =>
    match Text.fields ':' cs with
    | first :: others =>
      if isSpacedDigits (fun c => c.isDigit && c ≠ '0') first && others.all isSixty then
        some (sexagesimal (first :: others))
      else none
    | [] => none

/-! ## Doubles -/

/-- Whether an exponent is absent, or a letter, a sign and digits. -/
def isExponent : List Char → Bool
  | [] => true
  | e :: sign :: ds => (e = 'e' || e = 'E') && (sign = '+' || sign = '-') && isRow Char.isDigit ds
  | _ => false

/-- Reads digits with a point and perhaps an exponent. -/
def pointed? (cs : List Char) : Option Binary64 := do
  let (before, after) ← Text.cutAt? '.' cs
  let inner := after.takeWhile fun c => c.isDigit || c = '_'
  let exponent := after.drop inner.length
  if isExponent exponent && (before.isEmpty || isSpacedDigits Char.isDigit before) &&
      (!before.isEmpty || isSpacedDigits Char.isDigit inner) then
    (Decimal.ofText? (plainDigits cs)).map Decimal.toBinary64
  else none

/-- Reads a number in base sixty with a point in its last field. -/
def pointedSexagesimal? (cs : List Char) : Option Binary64 := do
  let (before, after) ← Text.cutAt? '.' cs
  if !after.all fun c => c.isDigit || c = '_' then none
  match Text.fields ':' before with
  | first :: second :: others =>
    if isSpacedDigits Char.isDigit first && (second :: others).all isSixty then
      let fields := (first :: second :: others).map plainDigits
      let last := (fields.getLast?.getD []) ++ '.' :: plainDigits after
      let doubles ← ((fields.dropLast ++ [last]).mapM fun field => (Decimal.ofText? field).map Decimal.toBinary64)
      let (total, _) := doubles.reverse.foldl
        (fun (sum, base) x => (sum.add (x.scale base), 60 * base)) (Binary64.zero false, 1)
      return total
    else none
  | _ => none

/-- Reads a number, of which the sign has been read. -/
def number? (signed negative : Bool) (cs : List Char) : Option Value :=
  let float (x : Binary64) : Value := .float (if negative then x.neg else x)
  if [".inf".toList, ".Inf".toList, ".INF".toList].contains cs then some (float (.infinite false))
  else if !signed && [".nan".toList, ".NaN".toList, ".NAN".toList].contains cs then some (.float .nan)
  else
    let pointed := if signed && cs.head? = some '.' then none else pointed? cs
    match pointed.or (pointedSexagesimal? cs) with
    | some x => some (float x)
    | none => (magnitude? cs).map fun n => .int (if negative then -n else n)

/-! ## Dates -/

/-- Reads the offset of a moment, with space before it, in minutes. -/
def cutZone? (cs : List Char) : Option (Option Int) :=
  match cs.dropWhile fun c => c = ' ' || c = '\t' with
  | [] => if cs.isEmpty then some none else none
  | ['Z'] => some (some 0)
  | sign :: cs =>
    if sign ≠ '+' && sign ≠ '-' then none
    else do
      let (h, rest) ← Text.cutDigits? 1 2 cs
      let m ← match rest with
        | [] => some []
        | ':' :: ds => (Text.cutDigits? 2 2 ds).bind fun (m, rest) => if rest.isEmpty then some m else none
        | _ => none
      return some (Calendar.offsetMinutes sign (Text.numeral h) (Text.numeral m))

/-- The fields of a time behind a date. -/
def cutTime? (cs : List Char) : Option ((Nat × Nat × Nat × Fin 1000000) × Option Int) := do
  let space := cs.takeWhile fun c => c = ' ' || c = '\t'
  let cs ← match cs with
    | c :: rest => if c = 'T' || c = 't' then some rest else if space.isEmpty then none else some (cs.drop space.length)
    | [] => none
  let (h, cs) ← Text.cutDigits? 1 2 cs
  let ':' :: cs := cs | none
  let (m, cs) ← Text.cutDigits? 2 2 cs
  let ':' :: cs := cs | none
  let (s, cs) ← Text.cutDigits? 2 2 cs
  let (fraction, cs) := match cs with
    | '.' :: rest => (rest.takeWhile Char.isDigit, rest.dropWhile Char.isDigit)
    | cs => ([], cs)
  let zone ← cutZone? cs
  return ((Text.numeral h, Text.numeral m, Text.numeral s, Calendar.microOfFraction fraction), zone)

/-- Reads a date or a moment; one whose fields are out of range is a fault. -/
def date? (cs : List Char) : Option (Except Fault Value) := do
  let (y, cs) ← Text.cutDigits? 4 4 cs
  let '-' :: cs := cs | none
  let (m, cs) ← Text.cutDigits? 1 2 cs
  let '-' :: cs := cs | none
  let (d, cs) ← Text.cutDigits? 1 2 cs
  let date := Calendar.Date.of (Text.numeral y) (Text.numeral m) (Text.numeral d)
  if cs.isEmpty then
    if m.length = 2 && d.length = 2 then return (date.map Value.date).mapError .misfit else none
  else
    let ((h, mi, s, micro), zone) ← cutTime? cs
    let moment : Except Calendar.Misfit Value := do
      let offset ← match zone with
        | some minutes => some <$> Calendar.Offset.of minutes
        | none => pure none
      let date ← date
      let clock ← Calendar.Clock.of h mi s micro
      return .moment ⟨date, clock, offset⟩
    return moment.mapError .misfit

/-! ## Scalars and nodes -/

/-- The words for nothing and for the truth values. -/
def words : List (String × Value) :=
  [("", .null), ("~", .null), ("null", .null), ("Null", .null), ("NULL", .null)] ++
    ["yes", "Yes", "YES", "true", "True", "TRUE", "on", "On", "ON"].map (·, .bool true) ++
    ["no", "No", "NO", "false", "False", "FALSE", "off", "Off", "OFF"].map (·, .bool false)

/-- The key under which the items of another mapping are merged in. -/
def mergeKey : List Char := ['<', '<']

/-- The value of a plain scalar. An equals sign and a merge key have no value of their own. -/
def resolve (cs : List Char) : Except Fault Value :=
  let text := String.ofList cs
  match words.lookup text with
  | some v => .ok v
  | none =>
    if cs = ['='] || cs = mergeKey then .error (.malformed .yaml)
    else
      let number := match cs with
        | '-' :: cs => number? true true cs
        | '+' :: cs => number? true false cs
        | cs => number? false false cs
      match number with
      | some v => .ok v
      | none => (date? cs).getD (.ok (.text text))

/-- Whether a value can be a key. -/
def isKey : Value → Bool
  | .list _ | .table _ => false
  | _ => true

/-- Whether a node is a merge key. -/
def isMerge : Node → Bool
  | .scalar plain text => plain && text = mergeKey
  | _ => false

/-- The items of a mapping with those under its merge keys in front, as far as the fuel reaches. -/
def merged? : Nat → List (Node × Node) → Option (List (Node × Node))
  | 0, _ => none
  | fuel + 1, items => do
    let under ← (items.filter fun item => isMerge item.1).mapM fun (_, node) =>
      match node with
      | .mapping items => merged? fuel items
      | .sequence nodes => do
        let parts ← nodes.mapM fun
          | .mapping items => merged? fuel items
          | _ => none
        return parts.reverse.flatten
      | .scalar _ _ => none
    return under.flatten ++ items.filter fun item => !isMerge item.1

/-- The value of a key; an equals sign is a text here. -/
def keyOf (value : Node → Except Fault Value) : Node → Except Fault Value
  | .scalar true ['='] => .ok (.text "=")
  | node => do
    let key ← value node
    if isKey key then return key else throw (.malformed .yaml)

/-- The value of a node, as far as the fuel reaches. -/
def Node.valueWithin : Nat → Node → Except Fault Value
  | 0, _ => .error (.malformed .yaml)
  | fuel + 1, node =>
    match node with
    | .scalar plain text => if plain then resolve text else .ok (.text (String.ofList text))
    | .sequence nodes => Value.list <$> nodes.mapM (valueWithin fuel)
    | .mapping items =>
      match merged? (fuel + 1) items with
      | none => .error (.malformed .yaml)
      | some items => do
        let items ← items.mapM fun (k, v) => do return (← keyOf (valueWithin fuel) k, ← valueWithin fuel v)
        return .table (Table.ofList items)

mutual

/-- How deep nodes are nested. -/
def Node.depth : Node → Nat
  | .scalar _ _ => 1
  | .sequence nodes => depthOfAll nodes + 1
  | .mapping items => depthOfItems items + 1

/-- How deep some nodes are nested. -/
def Node.depthOfAll : List Node → Nat
  | [] => 0
  | node :: nodes => max node.depth (depthOfAll nodes)

/-- How deep the nodes of some items are nested. -/
def Node.depthOfItems : List (Node × Node) → Nat
  | [] => 0
  | (k, v) :: items => max (max k.depth v.depth) (depthOfItems items)

end

/-- The value of a node. -/
def Node.value (node : Node) : Except Fault Value := node.valueWithin (node.depth + 1)

/-- Reads a whole text as a document. A text without a document is nothing. -/
def read (s : String) : Except Fault Value :=
  match (Token.scan? s.toList).bind Node.ofTokens? with
  | none => .error (.malformed .yaml)
  | some none => .ok .null
  | some (some node) => node.value

end Phrasebook.Yaml
