import Phrasebook.Plural.Category

/-!
# Findings

Something odd in a phrase file that does not stop its use: a key that almost names a plural variant, or a text that is
almost a template.

* `Finding.kind`, `Finding.path` and `Finding.message` describe a finding.
* `Audit` is a computation that reports findings on its way to an answer or a fault.
-/

namespace Phrasebook

/-- Something odd at a path. -/
inductive Finding where
  /-- the path ends with the name of a category, but there is no key before it -/
  | baselessVariant (path : String) (category : Plural.Category)
  /-- the path ends with something close to the name of a category -/
  | nearVariant (path token : String)
  /-- the text is almost a plural directive -/
  | nearDirective (path : String)
  /-- the text has placeholders without a name -/
  | blankPlaceholders (path : String) (count : Nat)
  /-- the text names a parameter again -/
  | repeatedParameter (path name : String)
  deriving DecidableEq, Repr

namespace Finding

/-- The word for the kind of a finding. -/
def kind : Finding → String
  | baselessVariant _ _ | nearVariant _ _ => "ambiguous-suffix-token"
  | nearDirective _ => "malformed-plural-directive"
  | blankPlaceholders _ _ => "empty-placeholder"
  | repeatedParameter _ _ => "duplicate-parameter"

/-- The path of a finding. -/
def path : Finding → String
  | baselessVariant path _ | nearVariant path _ | nearDirective path | blankPlaceholders path _
  | repeatedParameter path _ => path

/-- The text of a finding. -/
def message : Finding → String
  | baselessVariant _ category => "plural suffix '" ++ category.name ++ "' has no base key, treated as a plain key"
  | nearVariant _ token =>
    "suffix '" ++ token ++ "' is not one of " ++ ", ".intercalate (Plural.Category.all.map Plural.Category.name) ++
      ", treated as a plain key"
  | nearDirective _ =>
    "value looks like a plural directive but does not match it, placeholders scanned as plain text"
  | blankPlaceholders _ count => s!"{count} empty placeholder(s) '\x7b\x7d' ignored"
  | repeatedParameter _ name => "parameter '" ++ name ++ "' appears more than once"

/-- The finding in one line. -/
def summary (f : Finding) : String := f.kind ++ " at '" ++ f.path ++ "': " ++ f.message

end Finding

/-- A computation that reports findings and then answers or fails. -/
structure Audit (α : Type) where
  findings : List Finding
  outcome : Except Fault α

namespace Audit

variable {α β : Type}

/-- Reports one finding after another. -/
def report (findings : List Finding) : Audit Unit := ⟨findings, .ok ()⟩

/-- Answers or fails without a finding. -/
def ofExcept (outcome : Except Fault α) : Audit α := ⟨[], outcome⟩

/-- The first computation and then, if it answers, the second: what both found, and the answer of the second. -/
def andThen (first : Audit α) (second : α → Audit β) : Audit β :=
  match first.outcome with
  | .ok a =>
    let rest := second a
    ⟨first.findings ++ rest.findings, rest.outcome⟩
  | .error fault => ⟨first.findings, .error fault⟩

instance : Monad Audit where
  pure a := ⟨[], .ok a⟩
  bind := andThen

end Audit

end Phrasebook
