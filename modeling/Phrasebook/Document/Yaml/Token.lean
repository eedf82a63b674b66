import Phrasebook.Text.Cut
import Phrasebook.Text.Digit

/-!
# The tokens of a YAML document

A document is first cut into tokens. Indentation opens and closes block collections, so the scanner keeps the columns of
the open ones; and a key is known as a key only when its colon comes, so the scanner remembers where one may have begun
and puts the tokens of a key in front of it later.

* `Token.scan?` gives the tokens of a text, or nothing if the text cannot be cut into tokens.

Of YAML 1.1 these are left out: directives, anchors, aliases, tags and block scalars.
-/

namespace Phrasebook.Yaml

/-- A token. -/
inductive Token where
  | documentStart
  | documentEnd
  | blockSequenceStart
  | blockMappingStart
  | blockEnd
  | blockEntry
  | flowSequenceStart
  | flowSequenceEnd
  | flowMappingStart
  | flowMappingEnd
  | flowEntry
  | key
  | value
  /-- a scalar, and whether it stands without quotes -/
  | scalar (plain : Bool) (text : List Char)
  | streamEnd
  deriving DecidableEq, Repr

/-! ## Characters -/

/-- Whether a character may occur in a document. -/
def isAllowed (c : Char) : Bool :=
  let n := c.toNat
  n = 0x9 || n = 0xa || n = 0xd || (0x20 ≤ n && n ≤ 0x7e) || n = 0x85 || (0xa0 ≤ n && n ≤ 0xfffd) || 0x10000 ≤ n

/-- Whether a character ends a line. -/
def isBreak (c : Char) : Bool := c = '\n' || c = '\r' || c = '\x85' || c = '\u2028' || c = '\u2029'

/-- Whether a text ends here, or goes on with space or the end of a line. -/
def endsWord : List Char → Bool
  | [] => true
  | c :: _ => c = ' ' || c = '\t' || isBreak c

/-- Whether a text begins with one of the characters. -/
def startsWith (p : Char → Bool) : List Char → Bool
  | [] => false
  | c :: _ => p c

/-- Whether a text begins with the three characters of a document mark. -/
def startsWithMark (mark : Char) : List Char → Bool
  | a :: b :: c :: rest => a = mark && b = mark && c = mark && endsWord rest
  | _ => false

/-- Whether a text begins with the mark of the start or the end of a document. -/
def startsWithDocumentMark (cs : List Char) : Bool := startsWithMark '-' cs || startsWithMark '.' cs

/-! ## The state of the scanner -/

/-- Where a key may have begun. -/
structure KeyStart where
  /-- the number of tokens before it -/
  position : Nat
  /-- whether nothing but a key can stand there -/
  required : Bool
  index : Nat
  line : Nat
  column : Nat
  deriving Repr

/-- The text that is left, where it begins, and what has been found. -/
structure Scanner where
  rest : List Char
  index : Nat := 0
  line : Nat := 0
  column : Nat := 0
  /-- the tokens so far, the last one first -/
  tokens : List Token := []
  /-- the number of open flow collections -/
  flow : Nat := 0
  /-- the column of the innermost block collection, and those of the ones around it -/
  indent : Int := -1
  indents : List Int := []
  /-- whether a key may begin here -/
  keyAllowed : Bool := true
  /-- where a key may have begun, for each depth of flow collections -/
  keyStarts : List (Nat × KeyStart) := []

namespace Scanner

/-- Moves over one character. -/
def advance (s : Scanner) : Scanner :=
  match s.rest with
  | [] => s
  | c :: rest =>
    if isBreak c then { s with rest, index := s.index + 1, line := s.line + 1, column := 0 }
    else { s with rest, index := s.index + 1, column := if c = '\ufeff' then s.column else s.column + 1 }

/-- Moves over some characters. -/
def advanceBy : Nat → Scanner → Scanner
  | 0, s => s
  | n + 1, s => advanceBy n s.advance

/-- Adds a token. -/
def push (s : Scanner) (token : Token) : Scanner := { s with tokens := token :: s.tokens }

/-- Puts tokens in front of the token at a position. -/
def insertAt (s : Scanner) (position : Nat) (tokens : List Token) : Scanner :=
  let after := s.tokens.length - position
  { s with tokens := s.tokens.take after ++ tokens.reverse ++ s.tokens.drop after }

/-- Moves to the next token: over space, comments and ends of lines. -/
def toToken : Nat → Scanner → Scanner
  | 0, s => s
  | fuel + 1, s =>
    let s := s.advanceBy (s.rest.takeWhile (· = ' ')).length
    let s := if s.rest.head? = some '#' then s.advanceBy (s.rest.takeWhile (!isBreak ·)).length else s
    if startsWith isBreak s.rest then
      let s := s.advance
      toToken fuel (if s.flow = 0 then { s with keyAllowed := true } else s)
    else s

/-- Forgets the starts of keys that have got too far away. It is a fault if one of them had to be a key. -/
def dropStale (s : Scanner) : Option Scanner :=
  let isStale (k : KeyStart) : Bool := k.line ≠ s.line || 1024 < s.index - k.index
  if s.keyStarts.any fun (_, k) => isStale k && k.required then none
  else some { s with keyStarts := s.keyStarts.filter fun (_, k) => !isStale k }

/-- Forgets the start of a key at the present depth. It is a fault if it had to be a key. -/
def dropKey (s : Scanner) : Option Scanner :=
  match s.keyStarts.lookup s.flow with
  | some k => if k.required then none else some { s with keyStarts := s.keyStarts.filter (·.1 ≠ s.flow) }
  | none => some s

/-- Remembers that a key may begin here. -/
def saveKey (s : Scanner) : Option Scanner :=
  if s.keyAllowed then do
    let s ← s.dropKey
    let start : KeyStart :=
      { position := s.tokens.length
        required := s.flow = 0 && s.indent = s.column
        index := s.index, line := s.line, column := s.column }
    return { s with keyStarts := (s.flow, start) :: s.keyStarts }
  else some s

/-- Closes the block collections that stand further right than a column. -/
def unwind (column : Int) : List Int → Scanner → Scanner
  | [], s => s
  | outer :: indents, s =>
    if s.flow = 0 && column < s.indent then
      unwind column indents ({ s with indent := outer, indents }.push .blockEnd)
    else s

/-- Closes the block collections that stand further right than a column. -/
def unwindTo (s : Scanner) (column : Int) : Scanner := unwind column s.indents s

/-- Opens a block collection at a column if none is open there, with its token at a position. -/
def openBlock (s : Scanner) (column : Nat) (position : Nat) (token : Token) : Scanner :=
  if s.indent < column then { s with indents := s.indent :: s.indents, indent := column }.insertAt position [token]
  else s

/-! ## Scalars -/

/-- The end of a line as a scalar holds it. -/
def lineBreak (c : Char) : Char := if c = '\x85' || c = '\r' then '\n' else c

/-- The text of some ends of lines between two parts of a scalar: a single one is a space. -/
def foldBreaks : List Char → List Char
  | [] => []
  | first :: others => if first ≠ '\n' then first :: others else if others.isEmpty then [' '] else others

/-- Moves over space and ends of lines between two lines of a plain scalar, up to a document mark. Gives the ends of
lines, and whether there was a document mark. -/
def plainBreaks : Nat → Scanner → List Char × Bool × Scanner
  | 0, s => ([], false, s)
  | fuel + 1, s =>
    match s.rest with
    | ' ' :: _ => plainBreaks fuel s.advance
    | c :: _ =>
      if isBreak c then
        let s := s.advance
        if startsWithDocumentMark s.rest then ([lineBreak c], true, s)
        else
          let (breaks, marked, s) := plainBreaks fuel s
          (lineBreak c :: breaks, marked, s)
      else ([], false, s)
    | [] => ([], false, s)

/-- Reads the space between two words of a plain scalar. -/
def plainSpace (s : Scanner) : List Char × Scanner :=
  let space := s.rest.takeWhile (· = ' ')
  let s := s.advanceBy space.length
  if startsWith isBreak s.rest then
    let (breaks, marked, s) := plainBreaks (s.rest.length + 1) { s with keyAllowed := true }
    (if marked then [] else foldBreaks breaks, s)
  else (space, s)

/-- The number of characters that a word of a plain scalar takes. -/
def wordLength (inFlow : Bool) : List Char → Nat
  | [] => 0
  | c :: cs =>
    if endsWord (c :: cs) then 0
    else if c = ':' && (endsWord cs || (inFlow && startsWith (",[]\x7b\x7d".toList.contains ·) cs)) then 0
    else if inFlow && ",?[]\x7b\x7d".toList.contains c then 0
    else wordLength inFlow cs + 1

/-- Reads the words of a plain scalar, with `space` before the first of them. -/
def plainWords : Nat → List Char → Scanner → List Char × Scanner
  | 0, _, s => ([], s)
  | fuel + 1, space, s =>
    if s.rest.head? = some '#' then ([], s)
    else
      let n := wordLength (s.flow ≠ 0) s.rest
      if n = 0 then ([], s)
      else
        let word := s.rest.take n
        let (next, after) := plainSpace ({ s with keyAllowed := false }.advanceBy n)
        if next.isEmpty || after.rest.head? = some '#' || (after.flow = 0 && (after.column : Int) < after.indent + 1) then
          (space ++ word, after)
        else
          let (more, after) := plainWords fuel next after
          (space ++ word ++ more, after)

/-- What a letter behind a backslash stands for. -/
def escapes : List (Char × Char) := [
  ('0', '\x00'), ('a', '\x07'), ('b', '\x08'), ('t', '\t'), ('\t', '\t'), ('n', '\n'), ('v', '\x0b'), ('f', '\x0c'),
  ('r', '\r'), ('e', '\x1b'), (' ', ' '), ('"', '"'), ('\\', '\\'), ('/', '/'), ('N', '\x85'), ('_', '\xa0'),
  ('L', '\u2028'), ('P', '\u2029')]

/-- Moves over space and ends of lines inside quotes. Fails at a document mark. -/
def quotedBreaks : Nat → Scanner → Option (List Char × Scanner)
  | 0, _ => none
  | fuel + 1, s =>
    if startsWithDocumentMark s.rest then none
    else
      let s := s.advanceBy (s.rest.takeWhile fun c => c = ' ' || c = '\t').length
      match s.rest with
      | c :: _ =>
        if isBreak c then (quotedBreaks fuel s.advance).map fun (breaks, s) => (lineBreak c :: breaks, s)
        else some ([], s)
      | [] => some ([], s)

/-- The character that a row of hexadecimal digits behind a backslash stands for. -/
def hexChar? (n : Nat) (cs : List Char) : Option Char :=
  let ds := cs.take n
  let code := Text.numeralIn 16 ds
  if ds.length = n && ds.all Text.isHexDigit && code < 0x110000 then
    some (if 0xd800 ≤ code && code < 0xe000 then '\ufffd' else Char.ofNat code)
  else none

/-- Reads a quoted scalar behind its first quote. -/
def quotedText (double : Bool) : Nat → Scanner → Option (List Char × Scanner)
  | 0, _ => none
  | fuel + 1, s =>
    let goOn (before : List Char) (s : Scanner) : Option (List Char × Scanner) :=
      (quotedText double fuel s).map fun (text, s) => (before ++ text, s)
    match s.rest with
    | [] => none
    | '\'' :: rest =>
      if double then goOn ['\''] s.advance
      else if rest.head? = some '\'' then goOn ['\''] (s.advanceBy 2)
      else some ([], s.advance)
    | '"' :: _ => if double then some ([], s.advance) else goOn ['"'] s.advance
    | '\\' :: rest =>
      if !double then goOn ['\\'] s.advance
      else match rest with
        | [] => none
        | e :: digits =>
          match escapes.lookup e with
          | some c => goOn [c] (s.advanceBy 2)
          | none =>
            if isBreak e then (quotedBreaks (rest.length + 1) (s.advanceBy 2)).bind fun (breaks, s) => goOn breaks s
            else
              let n := if e = 'x' then 2 else if e = 'u' then 4 else if e = 'U' then 8 else 0
              if n = 0 then none else (hexChar? n digits).bind fun c => goOn [c] (s.advanceBy (n + 2))
    | c :: rest =>
      if c = ' ' || c = '\t' then
        let space := (c :: rest).takeWhile fun c => c = ' ' || c = '\t'
        let after := s.advanceBy space.length
        if after.rest.isEmpty then none else goOn (if startsWith isBreak after.rest then [] else space) after
      else if isBreak c then
        (quotedBreaks (rest.length + 1) s.advance).bind fun (breaks, s) => goOn (foldBreaks (lineBreak c :: breaks)) s
      else goOn [c] s.advance

/-! ## Tokens -/

/-- Whether a plain scalar can begin here. -/
def startsPlain (s : Scanner) : Bool :=
  match s.rest with
  | [] => false
  | c :: cs =>
    if endsWord (c :: cs) then false
    else if "-?:,[]\x7b\x7d#&*!|>'\"%@\x60".toList.contains c then
      !endsWord cs && (c = '-' || (s.flow = 0 && (c = '?' || c = ':')))
    else true

/-- A document mark. -/
def documentMark (s : Scanner) (token : Token) : Option Scanner := do
  let s ← (s.unwindTo (-1)).dropKey
  return ({ s with keyAllowed := false }.advanceBy 3).push token

/-- The start of a flow collection. -/
def flowStart (s : Scanner) (token : Token) : Option Scanner := do
  let s ← s.saveKey
  return { s with flow := s.flow + 1, keyAllowed := true }.advance.push token

/-- The end of a flow collection. -/
def flowEnd (s : Scanner) (token : Token) : Option Scanner := do
  let s ← s.dropKey
  return { s with flow := s.flow - 1, keyAllowed := false }.advance.push token

/-- A comma in a flow collection. -/
def flowComma (s : Scanner) : Option Scanner := do
  let s ← { s with keyAllowed := true }.dropKey
  return s.advance.push .flowEntry

/-- The dash of an entry. -/
def dash (s : Scanner) : Option Scanner := do
  if s.flow = 0 && !s.keyAllowed then none
  let s := if s.flow = 0 then s.openBlock s.column s.tokens.length .blockSequenceStart else s
  let s ← { s with keyAllowed := true }.dropKey
  return s.advance.push .blockEntry

/-- The question mark of a key. -/
def question (s : Scanner) : Option Scanner := do
  if s.flow = 0 && !s.keyAllowed then none
  let s := if s.flow = 0 then s.openBlock s.column s.tokens.length .blockMappingStart else s
  let s ← { s with keyAllowed := s.flow = 0 }.dropKey
  return s.advance.push .key

/-- The colon of a value. What may have been a key before it is one now. -/
def colon (s : Scanner) : Option Scanner :=
  match s.keyStarts.lookup s.flow with
  | some k =>
    let s := { s with keyStarts := s.keyStarts.filter (·.1 ≠ s.flow) }
    let s := s.insertAt k.position [.key]
    let s := if s.flow = 0 then s.openBlock k.column k.position .blockMappingStart else s
    some ({ s with keyAllowed := false }.advance.push .value)
  | none => do
    if s.flow = 0 && !s.keyAllowed then none
    let s := if s.flow = 0 then s.openBlock s.column s.tokens.length .blockMappingStart else s
    let s ← { s with keyAllowed := s.flow = 0 }.dropKey
    return s.advance.push .value

/-- A quoted scalar. -/
def quoted (s : Scanner) (double : Bool) : Option Scanner := do
  let s ← s.saveKey
  let s := { s with keyAllowed := false }.advance
  let (text, s) ← quotedText double (s.rest.length + 1) s
  return s.push (.scalar false text)

/-- A plain scalar. -/
def plain (s : Scanner) : Option Scanner := do
  let s ← s.saveKey
  let (text, s) := plainWords (s.rest.length + 1) [] { s with keyAllowed := false }
  return s.push (.scalar true text)

/-- Reads the next token. -/
def step (s : Scanner) : Option Scanner := do
  let s := s.toToken (s.rest.length + 1)
  let s ← s.dropStale
  let s := s.unwindTo s.column
  match s.rest with
  | [] => do
    let s ← (s.unwindTo (-1)).dropKey
    return { s with keyStarts := [] }.push .streamEnd
  | c :: cs =>
    if s.column = 0 && startsWithMark '-' s.rest then s.documentMark .documentStart
    else if s.column = 0 && startsWithMark '.' s.rest then s.documentMark .documentEnd
    else if c = '[' then s.flowStart .flowSequenceStart
    else if c = '{' then s.flowStart .flowMappingStart
    else if c = ']' then s.flowEnd .flowSequenceEnd
    else if c = '}' then s.flowEnd .flowMappingEnd
    else if c = ',' then s.flowComma
    else if c = '-' && endsWord cs then s.dash
    else if c = '?' && (s.flow ≠ 0 || endsWord cs) then s.question
    else if c = ':' && (s.flow ≠ 0 || endsWord cs) then s.colon
    else if c = '\'' then s.quoted false
    else if c = '"' then s.quoted true
    else if s.startsPlain then s.plain
    else none

/-- Reads tokens up to the end of the text. -/
def run : Nat → Scanner → Option Scanner
  | 0, _ => none
  | fuel + 1, s =>
    match s.step with
    | none => none
    | some s => if s.tokens.head? = some .streamEnd then some s else run fuel s

end Scanner

/-- The tokens of a text. A mark of byte order at its start is left out. -/
def Token.scan? (cs : List Char) : Option (List Token) :=
  if !cs.all isAllowed then none
  else
    let s : Scanner := { rest := cs }
    let s := if cs.head? = some '\ufeff' then s.advance else s
    (s.run (cs.length + 2)).map fun s => s.tokens.reverse

end Phrasebook.Yaml
