import Phrasebook.Calendar
import Phrasebook.Number.Decimal
import Phrasebook.Text.Cut
import Phrasebook.Value.Basic

/-!
# TOML documents

A document is a row of statements, each of which is the head of a table, the head of an element of an array of tables,
or an item of the table whose head came last.

* `Toml.read?` reads a whole text as a TOML document.
* `Draft` is the table that statements fill, with the names that may not be used again: a table is declared once, and
  what was written as an inline table or an array does not grow.
-/

namespace Phrasebook.Toml

/-! ## Characters and space -/

/-- Whether a character may not occur in a comment or in a text of one line. -/
def isControl (c : Char) : Bool := (c.toNat < 0x20 && c ≠ '\t') || c = '\x7f'

/-- Whether a character may stand in a key without quotes. -/
def isBare (c : Char) : Bool := c.isAlphanum || c = '-' || c = '_'

/-- A text without the space it begins with. -/
def skip (cs : List Char) : List Char := cs.dropWhile fun c => c = ' ' || c = '\t'

/-- A text without the space and the ends of lines it begins with. -/
def skipLines (cs : List Char) : List Char := cs.dropWhile fun c => c = ' ' || c = '\t' || c = '\n'

/-- Leaves out a comment, if there is one. -/
def skipComment? : List Char → Option (List Char)
  | '#' :: cs =>
    if (cs.takeWhile (· ≠ '\n')).any isControl then none else some (cs.dropWhile (· ≠ '\n'))
  | cs => some cs

/-- Leaves out space, ends of lines and comments. -/
def skipAll? : Nat → List Char → Option (List Char)
  | 0, _ => none
  | fuel + 1, cs =>
    match skipLines cs with
    | '#' :: rest => (skipComment? ('#' :: rest)).bind (skipAll? fuel)
    | rest => some rest

/-! ## Texts -/

/-- Reads the digits of a character given by its number. -/
def cutHex? (n : Nat) (cs : List Char) : Option (Char × List Char) :=
  let ds := cs.take n
  let code := Text.numeralIn 16 ds
  if ds.length = n && ds.all Text.isHexDigit && (code < 0xd800 || (0xe000 ≤ code && code < 0x110000)) then
    some (Char.ofNat code, cs.drop n)
  else none

/-- The character that a letter behind a backslash stands for. -/
def escaped? : Char → Option Char
  | 'b' => some '\x08'
  | 't' => some '\t'
  | 'n' => some '\n'
  | 'f' => some '\x0c'
  | 'r' => some '\r'
  | '"' => some '"'
  | '\\' => some '\\'
  | _ => none

/-- Reads an escape behind its backslash. In a text of several lines a backslash at the end of a line leaves out the
space up to the next word. -/
def cutEscape? (manyLines : Bool) : List Char → Option (List Char × List Char)
  | [] => none
  | e :: cs =>
    if manyLines && (e = ' ' || e = '\t' || e = '\n') then
      if e = '\n' then some ([], skipLines cs)
      else match skip cs with
        | [] => some ([], [])
        | '\n' :: rest => some ([], skipLines rest)
        | _ => none
    else if e = 'u' then (cutHex? 4 cs).map fun (c, rest) => ([c], rest)
    else if e = 'U' then (cutHex? 8 cs).map fun (c, rest) => ([c], rest)
    else (escaped? e).map fun c => ([c], cs)

/-- Reads a text with escapes behind its first quotes. -/
def cutBasic? (manyLines : Bool) : Nat → List Char → Option (List Char × List Char)
  | 0, _ => none
  | fuel + 1, cs =>
    let goOn (before : List Char) (rest : List Char) : Option (List Char × List Char) :=
      (cutBasic? manyLines fuel rest).map fun (text, rest) => (before ++ text, rest)
    match cs with
    | [] => none
    | '"' :: rest =>
      if !manyLines then some ([], rest)
      else match rest with
        | '"' :: '"' :: rest => some ([], rest)
        | rest => goOn ['"'] rest
    | '\\' :: rest => (cutEscape? manyLines rest).bind fun (text, rest) => goOn text rest
    | c :: rest => if isControl c && !(manyLines && c = '\n') then none else goOn [c] rest

/-- Adds up to two quotes that stand before the last three of a text of several lines. -/
def moreQuotes (quote : Char) (text : List Char) : List Char → List Char × List Char
  | a :: b :: rest =>
    if a = quote && b = quote then (text ++ [a, b], rest)
    else if a = quote then (text ++ [a], b :: rest)
    else (text, a :: b :: rest)
  | [a] => if a = quote then (text ++ [a], []) else (text, [a])
  | [] => (text, [])

/-- Reads a text as it stands behind its first quotes. -/
def cutLiteral? (manyLines : Bool) (cs : List Char) : Option (List Char × List Char) := do
  let mark := if manyLines then ['\'', '\'', '\''] else ['\'']
  let (text, rest) ← Text.cutAround? mark cs
  if text.any fun c => isControl c && !(manyLines && c = '\n') then none else return (text, rest)

/-- A text without the end of a line that it begins with. -/
def dropFirstBreak : List Char → List Char
  | '\n' :: cs => cs
  | cs => cs

/-- Reads a text, if one begins here. -/
def cutText? (cs : List Char) : Option (Option (List Char × List Char)) :=
  match cs with
  | '"' :: '"' :: '"' :: rest =>
    let rest := dropFirstBreak rest
    some ((cutBasic? true (rest.length + 1) rest).map fun (text, rest) => moreQuotes '"' text rest)
  | '"' :: rest => some (cutBasic? false (rest.length + 1) rest)
  | '\'' :: '\'' :: '\'' :: rest =>
    some ((cutLiteral? true (dropFirstBreak rest)).map fun (text, rest) => moreQuotes '\'' text rest)
  | '\'' :: rest => some (cutLiteral? false rest)
  | _ => none

/-! ## Keys -/

/-- Reads one part of a key. -/
def cutKeyPart? (cs : List Char) : Option (String × List Char) :=
  match cs with
  | '"' :: rest => (cutBasic? false (rest.length + 1) rest).map fun (text, rest) => (String.ofList text, rest)
  | '\'' :: rest => (cutLiteral? false rest).map fun (text, rest) => (String.ofList text, rest)
  | cs =>
    let bare := cs.takeWhile isBare
    if bare.isEmpty then none else some (String.ofList bare, cs.dropWhile isBare)

/-- Reads a key: parts with dots between them. -/
def cutKey? : Nat → List Char → Option (List String × List Char)
  | 0, _ => none
  | fuel + 1, cs => do
    let (part, rest) ← cutKeyPart? cs
    match skip rest with
    | '.' :: rest =>
      let (parts, rest) ← cutKey? fuel (skip rest)
      return (part :: parts, rest)
    | rest => return ([part], rest)

/-! ## Dates and numbers -/

/-- Reads a time of the day; all its fields are in their ranges. -/
def cutClock? (cs : List Char) : Option (Calendar.Clock × List Char) := do
  let ((h, m, s, micro), rest) ← Calendar.cutClock? cs
  let clock ← (Calendar.Clock.of h m s micro).toOption
  return (clock, rest)

/-- Reads an offset, if there is one. -/
def cutOffset (cs : List Char) : Option Calendar.Offset × List Char :=
  match cs with
  | 'Z' :: rest | 'z' :: rest => (some .zero, rest)
  | cs =>
    let offset := do
      let ((sign, h, m), rest) ← Calendar.cutOffset? cs
      if 60 ≤ m then none
      let offset ← (Calendar.Offset.of (Calendar.offsetMinutes sign h m)).toOption
      return (some offset, rest)
    offset.getD (none, cs)

/-- Reads a date or a moment, if one begins here; the inner option tells a date that is not in the calendar. -/
def cutDate? (cs : List Char) : Option (Option (Value × List Char)) := do
  let ((y, m, d), rest) ← Calendar.cutDate? cs
  if m < 1 || 12 < m || d < 1 || 31 < d then none
  let date := (Calendar.Date.of y m d).toOption
  let clock := match rest with
    | c :: more => if c = 'T' || c = 't' || c = ' ' then cutClock? more else none
    | [] => none
  match clock with
  | some (clock, rest) =>
    let (offset, rest) := cutOffset rest
    return date.map fun date => (.moment ⟨date, clock, offset⟩, rest)
  | none => return date.map fun date => (.date date, rest)

/-- Reads digits of a kind, with single underscores between them. -/
def cutSpaced (p : Char → Bool) : List Char → List Char × List Char
  | [] => ([], [])
  | '_' :: c :: cs =>
    if p c then
      let (ds, rest) := cutSpaced p cs
      (c :: ds, rest)
    else ([], '_' :: c :: cs)
  | c :: cs =>
    if p c then
      let (ds, rest) := cutSpaced p cs
      (c :: ds, rest)
    else ([], c :: cs)

/-- Reads a row of digits of a kind that begins with a digit. -/
def cutRow? (p : Char → Bool) : List Char → Option (List Char × List Char)
  | c :: cs =>
    if p c then
      let (ds, rest) := cutSpaced p cs
      some (c :: ds, rest)
    else none
  | [] => none

/-- Reads a whole number in base two, eight or sixteen. -/
def cutBased? : List Char → Option (Value × List Char)
  | '0' :: 'x' :: cs => (cutRow? Text.isHexDigit cs).map fun (ds, rest) => (.int (Text.numeralIn 16 ds), rest)
  | '0' :: 'b' :: cs =>
    (cutRow? (fun c => c = '0' || c = '1') cs).map fun (ds, rest) => (.int (Text.numeralIn 2 ds), rest)
  | '0' :: 'o' :: cs =>
    (cutRow? (fun c => '0' ≤ c && c ≤ '7') cs).map fun (ds, rest) => (.int (Text.numeralIn 8 ds), rest)
  | _ => none

/-- Reads a point with digits, if there is one. -/
def cutFraction (cs : List Char) : List Char × List Char :=
  match cs with
  | '.' :: rest =>
    match cutRow? Char.isDigit rest with
    | some (ds, rest) => ('.' :: ds, rest)
    | none => ([], cs)
  | _ => ([], cs)

/-- Reads an exponent, if there is one. -/
def cutExponent (cs : List Char) : List Char × List Char :=
  match cs with
  | e :: rest =>
    if e = 'e' || e = 'E' then
      let sign := (rest.take 1).filter fun c => c = '+' || c = '-'
      match cutRow? Char.isDigit (rest.drop sign.length) with
      | some (ds, rest) => ('e' :: sign ++ ds, rest)
      | none => ([], cs)
    else ([], cs)
  | [] => ([], cs)

/-- Reads a number in base ten. -/
def cutDecimal? (cs : List Char) : Option (Value × List Char) := do
  let (negative, rest) := Decimal.cutSign cs
  let (whole, rest) ← match rest with
    | '0' :: rest => some (['0'], rest)
    | rest => cutRow? Char.isDigit rest
  let (fraction, rest) := cutFraction rest
  let (exponent, rest) := cutExponent rest
  if fraction.isEmpty && exponent.isEmpty then
    let n : Int := Text.numeral whole
    return (.int (if negative then -n else n), rest)
  else
    let d ← Decimal.ofText? (whole ++ fraction ++ exponent)
    return (.float (if negative then d.toBinary64.neg else d.toBinary64), rest)

/-- The words for values. -/
def words : List (List Char × Value) := [
  ("true".toList, .bool true), ("false".toList, .bool false),
  ("inf".toList, .float (.infinite false)), ("+inf".toList, .float (.infinite false)),
  ("-inf".toList, .float (.infinite true)),
  ("nan".toList, .float .nan), ("+nan".toList, .float .nan), ("-nan".toList, .float .nan)]

/-- Reads one of the words. -/
def cutWord? (cs : List Char) : Option (Value × List Char) :=
  words.findSome? fun (word, v) => (Text.after? word cs).map fun rest => (v, rest)

/-- Reads a value that is not a text, an array or a table. -/
def cutScalar? (cs : List Char) : Option (Value × List Char) :=
  match cutDate? cs with
  | some date => date
  | none =>
    match cutClock? cs with
    | some (clock, rest) => some (.clock clock, rest)
    | none => ((cutBased? cs).or (cutDecimal? cs)).or (cutWord? cs)

/-! ## Tables -/

/-- Changes the table at the end of a row of keys and makes the tables on the way there. Where an array of tables is on
the way and arrays may be entered, its last table is meant. -/
def within (enterArrays : Bool) (change : Table → Option Table) : List String → Table → Option Table
  | [], items => change items
  | key :: keys, items =>
    match items.get? (.text key) with
    | none => (within enterArrays change keys []).map fun inner => items.set (.text key) (.table inner)
    | some (.table inner) =>
      (within enterArrays change keys inner).map fun inner => items.set (.text key) (.table inner)
    | some (.list vs) =>
      match enterArrays, vs.getLast? with
      | true, some (.table inner) =>
        (within enterArrays change keys inner).map fun inner =>
          items.set (.text key) (.list (vs.dropLast ++ [.table inner]))
      | _, _ => none
    | some _ => none

/-- Adds an item whose key is not there yet. -/
def addItem (key : String) (value : Value) (items : Table) : Option Table :=
  if items.contains (.text key) then none else some (items.set (.text key) value)

/-- Adds an empty table to the array at a key. -/
def addElement (key : String) (items : Table) : Option Table :=
  match items.get? (.text key) with
  | none => some (items.set (.text key) (.list [.table []]))
  | some (.list vs) => some (items.set (.text key) (.list (vs ++ [.table []])))
  | some _ => none

/-- Whether a value is an array or a table. -/
def isNest : Value → Bool
  | .list _ | .table _ => true
  | _ => false

/-- Whether a key lies at or below one of some keys. -/
def isBelow (keys : List (List String)) (key : List String) : Bool := keys.any (·.isPrefixOf key)

mutual

/-- Reads a value. -/
def cutValue? : Nat → List Char → Option (Value × List Char)
  | 0, _ => none
  | fuel + 1, cs =>
    match cutText? cs with
    | some text => text.map fun (text, rest) => (.text (String.ofList text), rest)
    | none =>
      match cs with
      | '[' :: rest => (cutElements? fuel rest).map fun (vs, rest) => (.list vs, rest)
      | '{' :: rest =>
        match skip rest with
        | '}' :: rest => some (.table [], rest)
        | rest => (cutInline? fuel [] [] rest).map fun (items, rest) => (.table items, rest)
      | cs => cutScalar? cs

/-- Reads the elements of an array up to its end. -/
def cutElements? : Nat → List Char → Option (List Value × List Char)
  | 0, _ => none
  | fuel + 1, cs => do
    match ← skipAll? (cs.length + 1) cs with
    | ']' :: rest => return ([], rest)
    | cs =>
      let (v, rest) ← cutValue? fuel cs
      match ← skipAll? (rest.length + 1) rest with
      | ']' :: rest => return ([v], rest)
      | ',' :: rest =>
        let (vs, rest) ← cutElements? fuel rest
        return (v :: vs, rest)
      | _ => none

/-- Reads the items of an inline table up to its end, where some keys may not grow. -/
def cutInline? : Nat → List (List String) → Table → List Char → Option (Table × List Char)
  | 0, _, _, _ => none
  | fuel + 1, frozen, items, cs => do
    let (key, v, rest) ← cutItem? fuel cs
    if isBelow frozen key then none
    let items ← within false (addItem (key.getLast?.getD "") v) key.dropLast items
    match skip rest with
    | '}' :: rest => return (items, rest)
    | ',' :: rest => cutInline? fuel (if isNest v then key :: frozen else frozen) items (skip rest)
    | _ => none

/-- Reads a key, an equals sign and a value. -/
def cutItem? : Nat → List Char → Option (List String × Value × List Char)
  | 0, _ => none
  | fuel + 1, cs => do
    let (key, rest) ← cutKey? (cs.length + 1) cs
    let '=' :: rest := rest | none
    let (v, rest) ← cutValue? fuel (skip rest)
    return (key, v, rest)

end

/-! ## Statements -/

/-- The table of the statements so far. -/
structure Draft where
  items : Table := []
  /-- the key of the table that items are added to -/
  header : List String := []
  /-- tables that must not be declared again -/
  declared : List (List String) := []
  /-- tables that must not be declared again once the next head has come -/
  pending : List (List String) := []
  /-- keys below which nothing may be added -/
  frozen : List (List String) := []

namespace Draft

/-- A head comes: what was pending is declared now. -/
def settle (d : Draft) : Draft := { d with declared := d.pending ++ d.declared, pending := [] }

/-- The head of a table. -/
def openTable (d : Draft) (key : List String) : Option Draft := do
  if d.declared.contains key || isBelow d.frozen key then none
  let items ← within true some key d.items
  return { d with items, header := key, declared := key :: d.declared }

/-- The head of an element of an array of tables. What was declared in the element before it may be declared again. -/
def openElement (d : Draft) (key : List String) : Option Draft := do
  if isBelow d.frozen key then none
  let items ← within true (addElement (key.getLast?.getD "")) key.dropLast d.items
  return { d with items
                  header := key
                  declared := key :: d.declared.filter (!key.isPrefixOf ·)
                  frozen := d.frozen.filter (!key.isPrefixOf ·) }

/-- An item. -/
def add (d : Draft) (key : List String) (v : Value) : Option Draft := do
  let parents := (List.range (key.length - 1)).map fun n => d.header ++ key.take (n + 1)
  if parents.any d.declared.contains then none
  if isBelow d.frozen (d.header ++ key.dropLast) then none
  let items ← within true (addItem (key.getLast?.getD "") v) (d.header ++ key.dropLast) d.items
  return { d with items
                  pending := parents ++ d.pending
                  frozen := if isNest v then (d.header ++ key) :: d.frozen else d.frozen }

end Draft

/-- Reads a statement, if the line holds one. -/
def cutStatement? (d : Draft) (cs : List Char) : Option (Draft × List Char) :=
  match cs with
  | [] => some (d, [])
  | '[' :: '[' :: rest => do
    let (key, rest) ← cutKey? (rest.length + 1) (skip rest)
    let d ← d.settle.openElement key
    match rest with
    | ']' :: ']' :: rest => return (d, rest)
    | _ => none
  | '[' :: rest => do
    let (key, rest) ← cutKey? (rest.length + 1) (skip rest)
    let d ← d.settle.openTable key
    match rest with
    | ']' :: rest => return (d, rest)
    | _ => none
  | c :: _ =>
    if isBare c || c = '"' || c = '\'' then do
      let (key, v, rest) ← cutItem? (2 * cs.length + 2) cs
      let d ← d.add key v
      return (d, rest)
    else if c = '#' || c = '\n' then some (d, cs)
    else none

/-- Reads the statements of a text, one to a line. -/
def run : Nat → Draft → List Char → Option Draft
  | 0, _, _ => none
  | fuel + 1, d, cs => do
    let (d, rest) ← cutStatement? d (skip cs)
    match ← skipComment? (skip rest) with
    | [] => return d
    | '\n' :: rest => run fuel d rest
    | _ => none

/-- A text with ends of lines of one character. -/
def joinBreaks : List Char → List Char
  | '\r' :: '\n' :: cs => '\n' :: joinBreaks cs
  | c :: cs => c :: joinBreaks cs
  | [] => []

/-- Reads a whole text as a document. -/
def read? (s : String) : Option Value :=
  let cs := joinBreaks s.toList
  (run (cs.length + 1) {} cs).map fun d => .table d.items

end Phrasebook.Toml
