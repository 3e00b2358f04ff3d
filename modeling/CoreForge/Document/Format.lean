import CoreForge.Failure
import CoreForge.Json.Reader
import CoreForge.Yaml.Reader
/-!
# Formats of documents

A document is written in JSON or in YAML. Reading a text is reading a document of the
expected shape and then what it means; which of the two fails is not told apart.
-/

namespace CoreForge

/-- The format of a text. -/
inductive Format
  | json
  | yaml
deriving DecidableEq, Repr, Inhabited

namespace Format

/-- Reads what a text says. -/
def read? (format : Format) (schema : Schema α) (text : String) : Option α :=
  let document :=
    match format with
    | .json => Json.read? schema.shape text
    | .yaml => Yaml.read? schema.shape text
  document.bind schema.decode

/-- The failure of a text in this format. -/
def failure : Format → Failure
  | .json => .malformedJson
  | .yaml => .malformedYaml

/-- Reads what a text says, or fails. -/
def read (format : Format) (schema : Schema α) (text : String) : Except Failure α :=
  match format.read? schema text with
  | some x => .ok x
  | none => .error format.failure

end Format

end CoreForge
