import Phrasebook.Document.Proper

/-!
# Parsers

Documents are parsed by others: one parser for each format. A table that a parser hands over has no key twice.

* `Parsers.read` reads the octets of a file. A JSON document is decoded here; the other parsers decode for themselves.
* `Parsers.standard` are the parsers of this library, and `Parsers.Documented` is what is known of parsers in general.
-/

namespace Phrasebook

/-- A text in which every line ends with one character. -/
def Text.unifyBreaks : List Char → List Char
  | '\r' :: '\n' :: cs => '\n' :: unifyBreaks cs
  | '\r' :: cs => '\n' :: unifyBreaks cs
  | c :: cs => c :: unifyBreaks cs
  | [] => []

/-- A parser for each format. -/
structure Parsers where
  json : String → Except Fault Value
  yaml : ByteArray → Except Fault Value
  toml : ByteArray → Except Fault Value
  isProper_of_json : ∀ {s : String} {v : Value}, json s = .ok v → v.isProper = true
  isProper_of_yaml : ∀ {bytes : ByteArray} {v : Value}, yaml bytes = .ok v → v.isProper = true
  isProper_of_toml : ∀ {bytes : ByteArray} {v : Value}, toml bytes = .ok v → v.isProper = true

namespace Parsers

/-- Whether a JSON document is read once more after a fault. -/
def retries : Fault → Bool
  | .malformed .json => false
  | fault => fault.isOfValue

/-- Reads a JSON document, and after a fault once more with unified ends of lines. -/
def readJson (p : Parsers) (s : String) : Except Fault Value :=
  match p.json s with
  | .ok v => .ok v
  | .error fault => if retries fault then p.json (String.ofList (Text.unifyBreaks s.toList)) else .error fault

/-- Reads the octets of a file. -/
def read (p : Parsers) (format : Format) (bytes : ByteArray) : Except Fault Value :=
  match format with
  | .json => match String.fromUTF8? bytes with
    | none => .error .undecodable
    | some s => p.readJson s
  | .yaml => p.yaml bytes
  | .toml => p.toml bytes

/-- No key comes twice in a document that is read. -/
theorem isProper_of_read {p : Parsers} {format : Format} {bytes : ByteArray} {v : Value}
    (h : p.read format bytes = .ok v) : v.isProper = true := by
  unfold read at h
  split at h
  · split at h
    · cases h
    · unfold readJson at h
      split at h
      · next hjson =>
        cases h
        exact p.isProper_of_json hjson
      · split at h
        · exact p.isProper_of_json h
        · cases h
  · exact p.isProper_of_yaml h
  · exact p.isProper_of_toml h

/-! ## The parsers of this library -/

/-- Reads octets as a text. -/
def decoded (read : String → Except Fault Value) (bytes : ByteArray) : Except Fault Value :=
  match String.fromUTF8? bytes with
  | none => .error .undecodable
  | some s => read s

/-- Reads a TOML document. -/
def readToml (s : String) : Except Fault Value :=
  match Toml.read? s with
  | some v => .ok v
  | none => .error (.malformed .toml)

theorem isProper_of_decoded {read : String → Except Fault Value}
    (hread : ∀ {s v}, read s = .ok v → v.isProper = true) {bytes : ByteArray} {v : Value}
    (h : decoded read bytes = .ok v) : v.isProper = true := by
  unfold decoded at h
  split at h
  · cases h
  · exact hread h

theorem isProper_of_readToml {s : String} {v : Value} (h : readToml s = .ok v) : v.isProper = true := by
  unfold readToml at h
  split at h
  · next hread =>
    cases h
    exact Toml.isProper_of_read? hread
  · cases h

/-- The parsers of this library. -/
def standard : Parsers where
  json := Json.read
  yaml := decoded fun s => Yaml.read (String.ofList (Text.unifyBreaks s.toList))
  toml := decoded readToml
  isProper_of_json := Json.isProper_of_read
  isProper_of_yaml := isProper_of_decoded Yaml.isProper_of_read
  isProper_of_toml := isProper_of_decoded isProper_of_readToml

/-- What is known of parsers: they refuse a text that is not a document of their format, a YAML parser with a fault of
its own and the others with one about a value. -/
structure Documented (p : Parsers) : Prop where
  json : ∀ {s : String} {fault : Fault}, p.json s = .error fault → fault.isOfValue = true
  yaml : ∀ {bytes : ByteArray} {fault : Fault}, p.yaml bytes = .error fault →
    fault = .malformed .yaml ∨ fault.isOfValue = true
  toml : ∀ {bytes : ByteArray} {fault : Fault}, p.toml bytes = .error fault → fault.isOfValue = true

end Parsers

end Phrasebook
