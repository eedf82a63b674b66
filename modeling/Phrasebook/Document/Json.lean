import Phrasebook.Fault
import Phrasebook.Number.Decimal
import Phrasebook.Text.Cut

/-!
# JSON documents

* `Json.read` reads a whole text as a JSON document. Numbers with a point or an exponent are doubles, others are whole
  numbers of at most 4300 digits; infinities and what is not a number have names. A key that comes again replaces the
  value. The first thing that cannot be read decides the fault.
-/

namespace Phrasebook.Json

/-- Whether a character may stand between the parts of a document. -/
def isSpace (c : Char) : Bool := c = ' ' || c = '\t' || c = '\n' || c = '\r'

/-- A text without the space it begins with. -/
def skip (cs : List Char) : List Char := cs.dropWhile isSpace

/-! ## Texts -/

/-- Reads four digits of base sixteen. -/
def cutHex4? : List Char → Option (Nat × List Char)
  | a :: b :: c :: d :: cs =>
    if [a, b, c, d].all Text.isHexDigit then some (Text.numeralIn 16 [a, b, c, d], cs) else none
  | _ => none

/-- The character of a code point; half of a pair is not a character. -/
def charOf (n : Nat) : Char := if 0xd800 ≤ n && n < 0xe000 then '\ufffd' else Char.ofNat n

/-- Reads an escape behind its `u`: two halves of a pair make one character. -/
def cutUnicode? (cs : List Char) : Option (Char × List Char) := do
  let (high, cs) ← cutHex4? cs
  if 0xd800 ≤ high && high < 0xdc00 then
    match cs with
    | '\\' :: 'u' :: rest =>
      match cutHex4? rest with
      | some (low, rest) =>
        if 0xdc00 ≤ low && low < 0xe000 then
          return (Char.ofNat (0x10000 + (high - 0xd800) * 0x400 + (low - 0xdc00)), rest)
        else return (charOf high, cs)
      | none => none
    | _ => return (charOf high, cs)
  else return (charOf high, cs)

/-- The character that a letter behind a backslash stands for. -/
def escaped? : Char → Option Char
  | '"' => some '"'
  | '\\' => some '\\'
  | '/' => some '/'
  | 'b' => some '\x08'
  | 'f' => some '\x0c'
  | 'n' => some '\n'
  | 'r' => some '\r'
  | 't' => some '\t'
  | _ => none

/-- Reads a text behind its first quote. -/
def cutText? : Nat → List Char → Option (List Char × List Char)
  | 0, _ => none
  | fuel + 1, cs =>
    match cs with
    | [] => none
    | '"' :: cs => some ([], cs)
    | '\\' :: 'u' :: cs => do
      let (c, cs) ← cutUnicode? cs
      let (text, cs) ← cutText? fuel cs
      return (c :: text, cs)
    | '\\' :: e :: cs => do
      let c ← escaped? e
      let (text, cs) ← cutText? fuel cs
      return (c :: text, cs)
    | c :: cs => do
      if c.toNat < 0x20 || c = '\\' then none
      let (text, cs) ← cutText? fuel cs
      return (c :: text, cs)

/-! ## Numbers -/

/-- Reads the digits before the point: a zero stands alone. -/
def cutWhole? : List Char → Option (List Char × List Char)
  | '0' :: cs => some (['0'], cs)
  | c :: cs => if c.isDigit then some ((c :: cs).takeWhile Char.isDigit, (c :: cs).dropWhile Char.isDigit) else none
  | [] => none

/-- Reads a point with digits, if there is one. -/
def cutFraction (cs : List Char) : List Char × List Char :=
  match cs with
  | '.' :: d :: rest =>
    if d.isDigit then ('.' :: (d :: rest).takeWhile Char.isDigit, (d :: rest).dropWhile Char.isDigit) else ([], cs)
  | _ => ([], cs)

/-- Reads an exponent, if there is one. -/
def cutExponent (cs : List Char) : List Char × List Char :=
  match cs with
  | e :: rest =>
    if e = 'e' || e = 'E' then
      let sign := rest.takeWhile (fun c => c = '+' || c = '-') |>.take 1
      let rest := rest.drop sign.length
      let digits := rest.takeWhile Char.isDigit
      if digits.isEmpty then ([], cs) else ('e' :: sign ++ digits, rest.drop digits.length)
    else ([], cs)
  | [] => ([], cs)

/-- What is read, unless the rules are broken. -/
def unlessBroken {α : Type} (found : Option α) : Except Fault α :=
  match found with
  | some a => .ok a
  | none => .error (.malformed .json)

/-- Reads a number. -/
def cutNumber (cs : List Char) : Except Fault (Value × List Char) := do
  let (negative, rest) := match cs with
    | '-' :: rest => (true, rest)
    | rest => (false, rest)
  let (whole, rest) ← unlessBroken (cutWhole? rest)
  let (fraction, rest) := cutFraction rest
  let (exponent, rest) := cutExponent rest
  if fraction.isEmpty && exponent.isEmpty then
    if Text.digitLimit < whole.length then throw (.tooManyDigits whole.length)
    let n : Int := Text.numeral whole
    return (.int (if negative then -n else n), rest)
  else
    let d ← unlessBroken (Decimal.ofText? (whole ++ fraction ++ exponent))
    return (.float (if negative then d.toBinary64.neg else d.toBinary64), rest)

/-! ## Values -/

/-- The words for values. -/
def words : List (List Char × Value) := [
  ("null".toList, .null), ("true".toList, .bool true), ("false".toList, .bool false), ("NaN".toList, .float .nan),
  ("Infinity".toList, .float (.infinite false)), ("-Infinity".toList, .float (.infinite true))]

/-- Reads one of the words. -/
def cutWord? (cs : List Char) : Option (Value × List Char) :=
  words.findSome? fun (word, v) => (Text.after? word cs).map fun rest => (v, rest)

mutual

/-- Reads a value. -/
def cutValue : Nat → List Char → Except Fault (Value × List Char)
  | 0, _ => .error (.malformed .json)
  | fuel + 1, cs =>
    match cs with
    | '"' :: cs => do
      let (text, cs) ← unlessBroken (cutText? (cs.length + 1) cs)
      return (.text (String.ofList text), cs)
    | '[' :: cs =>
      match skip cs with
      | ']' :: cs => .ok (.list [], cs)
      | cs => do
        let (vs, cs) ← cutElements fuel cs
        return (.list vs, cs)
    | '{' :: cs =>
      match skip cs with
      | '}' :: cs => .ok (.table [], cs)
      | cs => do
        let (items, cs) ← cutMembers fuel cs
        return (.table (Table.ofList items), cs)
    | cs =>
      match cutWord? cs with
      | some read => .ok read
      | none => cutNumber cs

/-- Reads the elements of a list up to its end. -/
def cutElements : Nat → List Char → Except Fault (List Value × List Char)
  | 0, _ => .error (.malformed .json)
  | fuel + 1, cs => do
    let (v, cs) ← cutValue fuel cs
    match skip cs with
    | ']' :: cs => return ([v], cs)
    | ',' :: cs =>
      let (vs, cs) ← cutElements fuel (skip cs)
      return (v :: vs, cs)
    | _ => throw (.malformed .json)

/-- Reads the members of a table up to its end. -/
def cutMembers : Nat → List Char → Except Fault (List (Value × Value) × List Char)
  | 0, _ => .error (.malformed .json)
  | fuel + 1, cs =>
    match cs with
    | '"' :: cs => do
      let (key, cs) ← unlessBroken (cutText? (cs.length + 1) cs)
      match skip cs with
      | ':' :: cs =>
        let (v, cs) ← cutValue fuel (skip cs)
        let item := (Value.text (String.ofList key), v)
        match skip cs with
        | '}' :: cs => return ([item], cs)
        | ',' :: cs =>
          let (items, cs) ← cutMembers fuel (skip cs)
          return (item :: items, cs)
        | _ => throw (.malformed .json)
      | _ => throw (.malformed .json)
    | _ => .error (.malformed .json)

end

/-- Reads a whole text as a document. Every value takes a character, so there is fuel enough. -/
def read (s : String) : Except Fault Value := do
  let cs := skip s.toList
  let (v, cs) ← cutValue (2 * cs.length + 2) cs
  if (skip cs).isEmpty then return v else throw (.malformed .json)

end Phrasebook.Json
