import Phrasebook.Document.Yaml.Token

/-!
# The nodes of a YAML document

* `Node.ofTokens?` arranges the tokens of a text with one document as a tree of scalars, sequences and mappings. What
  is left out is an empty plain scalar.
-/

namespace Phrasebook.Yaml

/-- A node: a scalar, which stands without quotes if it is plain, a sequence, or a mapping. -/
inductive Node where
  | scalar (plain : Bool) (text : List Char)
  | sequence (nodes : List Node)
  | mapping (items : List (Node × Node))

namespace Node

/-- What is left out. -/
def empty : Node := .scalar true []

/-- Whether the next token is one of some. -/
def nextIn (kinds : List Token) (tokens : List Token) : Bool := tokens.head?.any kinds.contains

mutual

/-- Reads a node. In a block collection the value of a key may be a sequence that is not indented. -/
def cut? (block indentless : Bool) : Nat → List Token → Option (Node × List Token)
  | 0, _ => none
  | fuel + 1, tokens =>
    match tokens with
    | .scalar plain text :: rest => some (.scalar plain text, rest)
    | .flowSequenceStart :: rest => (cutFlowEntries? fuel true rest).map fun (nodes, rest) => (.sequence nodes, rest)
    | .flowMappingStart :: rest => (cutFlowItems? fuel true rest).map fun (items, rest) => (.mapping items, rest)
    | .blockEntry :: _ =>
      if indentless then (cutLooseEntries? fuel tokens).map fun (nodes, rest) => (.sequence nodes, rest) else none
    | .blockSequenceStart :: rest =>
      if block then (cutEntries? fuel rest).map fun (nodes, rest) => (.sequence nodes, rest) else none
    | .blockMappingStart :: rest =>
      if block then (cutItems? fuel rest).map fun (items, rest) => (.mapping items, rest) else none
    | _ => none

/-- Reads a node unless the next token shows that it is left out. -/
def cutUnless? (stop : List Token) (block indentless : Bool) : Nat → List Token → Option (Node × List Token)
  | 0, _ => none
  | fuel + 1, tokens => if nextIn stop tokens then some (empty, tokens) else cut? block indentless fuel tokens

/-- Reads the entries of a block sequence and its end. -/
def cutEntries? : Nat → List Token → Option (List Node × List Token)
  | 0, _ => none
  | fuel + 1, tokens =>
    match tokens with
    | .blockEnd :: rest => some ([], rest)
    | .blockEntry :: rest => do
      let (node, rest) ← cutUnless? [.blockEntry, .blockEnd] true false fuel rest
      let (nodes, rest) ← cutEntries? fuel rest
      return (node :: nodes, rest)
    | _ => none

/-- Reads the entries of a sequence that is not indented. -/
def cutLooseEntries? : Nat → List Token → Option (List Node × List Token)
  | 0, _ => none
  | fuel + 1, tokens =>
    match tokens with
    | .blockEntry :: rest => do
      let (node, rest) ← cutUnless? [.blockEntry, .key, .value, .blockEnd] true false fuel rest
      let (nodes, rest) ← cutLooseEntries? fuel rest
      return (node :: nodes, rest)
    | rest => some ([], rest)

/-- Reads the items of a block mapping and its end. -/
def cutItems? : Nat → List Token → Option (List (Node × Node) × List Token)
  | 0, _ => none
  | fuel + 1, tokens =>
    match tokens with
    | .blockEnd :: rest => some ([], rest)
    | .key :: rest => do
      let (key, rest) ← cutUnless? [.key, .value, .blockEnd] true true fuel rest
      let (value, rest) ← match rest with
        | .value :: rest => cutUnless? [.key, .value, .blockEnd] true true fuel rest
        | rest => some (empty, rest)
      let (items, rest) ← cutItems? fuel rest
      return ((key, value) :: items, rest)
    | _ => none

/-- Reads the entries of a flow sequence and its end. A single item of a mapping may be an entry. -/
def cutFlowEntries? : Nat → Bool → List Token → Option (List Node × List Token)
  | 0, _, _ => none
  | fuel + 1, first, tokens =>
    match tokens with
    | .flowSequenceEnd :: rest => some ([], rest)
    | tokens => do
      let tokens ← if first then some tokens else match tokens with
        | .flowEntry :: rest => some rest
        | _ => none
      match tokens with
      | .flowSequenceEnd :: rest => return ([], rest)
      | .key :: rest => do
        let (key, rest) ← cutUnless? [.value, .flowEntry, .flowSequenceEnd] false false fuel rest
        let (value, rest) ← match rest with
          | .value :: rest => cutUnless? [.flowEntry, .flowSequenceEnd] false false fuel rest
          | rest => some (empty, rest)
        let (nodes, rest) ← cutFlowEntries? fuel false rest
        return (.mapping [(key, value)] :: nodes, rest)
      | tokens => do
        let (node, rest) ← cut? false false fuel tokens
        let (nodes, rest) ← cutFlowEntries? fuel false rest
        return (node :: nodes, rest)

/-- Reads the items of a flow mapping and its end. -/
def cutFlowItems? : Nat → Bool → List Token → Option (List (Node × Node) × List Token)
  | 0, _, _ => none
  | fuel + 1, first, tokens =>
    match tokens with
    | .flowMappingEnd :: rest => some ([], rest)
    | tokens => do
      let tokens ← if first then some tokens else match tokens with
        | .flowEntry :: rest => some rest
        | _ => none
      match tokens with
      | .flowMappingEnd :: rest => return ([], rest)
      | .key :: rest => do
        let (key, rest) ← cutUnless? [.value, .flowEntry, .flowMappingEnd] false false fuel rest
        let (value, rest) ← match rest with
          | .value :: rest => cutUnless? [.flowEntry, .flowMappingEnd] false false fuel rest
          | rest => some (empty, rest)
        let (items, rest) ← cutFlowItems? fuel false rest
        return ((key, value) :: items, rest)
      | tokens => do
        let (key, rest) ← cut? false false fuel tokens
        let (items, rest) ← cutFlowItems? fuel false rest
        return ((key, empty) :: items, rest)

end

/-- Whether nothing but ends of the document is left. -/
def isOver : List Token → Bool
  | [] | [.streamEnd] => true
  | .documentEnd :: rest => isOver rest
  | _ => false

/-- The node of a text with one document, if it holds anything. The inner option tells a text without a document. -/
def ofTokens? (tokens : List Token) : Option (Option Node) :=
  let fuel := 4 * tokens.length + 8
  let whole : Option (Node × List Token) → Option (Option Node)
    | some (node, rest) => if isOver rest then some (some node) else none
    | none => none
  match tokens with
  | [] | [.streamEnd] => some none
  | .documentStart :: rest => whole (cutUnless? [.documentStart, .documentEnd, .streamEnd] true false fuel rest)
  | tokens => whole (cut? true false fuel tokens)

end Node

end Phrasebook.Yaml
