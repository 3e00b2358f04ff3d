import CoreForge.Placement.Refusal
/-!
# Failures

Everything that can go wrong, by cause. A message about a malformed document
names the document and not the place in it.
-/

namespace CoreForge

/-- The classes of failures. -/
inductive FailureKind
  /-- A file cannot be read or written. -/
  | io
  /-- A document does not say what it should. -/
  | malformed
  /-- Something that is referred to does not exist. -/
  | notFound
  /-- A protocol is in no table. -/
  | unknownProtocol
  /-- An item would lie outside its container. -/
  | bounds
  /-- An overlap cannot be resolved. -/
  | collision
deriving DecidableEq, Repr

/-- A failure with its cause. -/
inductive Failure
  | io (path : String)
  /-- A JSON text that is none, or does not fit. -/
  | malformedJson
  /-- A YAML text that is none, or does not fit. -/
  | malformedYaml
  /-- A document in a file that is none, or does not fit. -/
  | malformedFile (path : String)
  /-- The index of an instance of an array does not fit 32 bits. -/
  | indexOutOfRange (interface : String) (start offset : Nat)
  /-- Issues were found and are not tolerated. -/
  | issues (path : String) (count : Nat)
  | missingFile (path : String)
  | missingImport (path : String)
  | noEntity
  | unknownProtocol (type : String)
  | refused (reason : Refusal)
deriving DecidableEq, Repr

namespace Failure

/-- The class of a failure. -/
def kind : Failure → FailureKind
  | .io _ => .io
  | .malformedJson | .malformedYaml | .malformedFile _ | .indexOutOfRange .. | .issues .. => .malformed
  | .missingFile _ | .missingImport _ | .noEntity => .notFound
  | .unknownProtocol _ => .unknownProtocol
  | .refused .outOfBounds | .refused .negativeOffset => .bounds
  | .refused .occupied => .collision
  | .refused .noSelection | .refused (.invalidSelection _) => .notFound

/-- What is said about a malformed thing. -/
def malformedMessage (origin : String) (explanation : Option String) : String :=
  "Malformed " ++ origin ++ (explanation.map (": " ++ ·)).getD ""

/-- What is said about a missing thing. -/
def notFoundMessage (what : String) : String := what ++ " not found"

/-- A text in single quotes. -/
def quoted (s : String) : String := "'" ++ s ++ "'"

/-- The failure in words. -/
def message : Failure → String
  | .io path => "IO exception on " ++ quoted path
  | .malformedJson => malformedMessage "JSON document" none
  | .malformedYaml => malformedMessage "YAML document" none
  | .malformedFile path => malformedMessage path none
  | .indexOutOfRange interface start offset =>
    malformedMessage ("bus interface " ++ interface)
      ("array index " ++ toString start ++ " + " ++ toString offset ++ " out of range")
  | .issues path count => malformedMessage path (toString count ++ " validation issue(s)")
  | .missingFile path => notFoundMessage (quoted path)
  | .missingImport path => notFoundMessage ("Memory map import " ++ quoted path)
  | .noEntity => notFoundMessage "Entity declaration"
  | .unknownProtocol type => "Unknown bus protocol " ++ quoted type
  | .refused (.noSelection) => notFoundMessage Refusal.noSelection.message
  | .refused (.invalidSelection index) => notFoundMessage (Refusal.invalidSelection index).message
  | .refused reason => reason.message

end Failure

end CoreForge
