import CoreForge.Command.Basic
import CoreForge.Context
import CoreForge.Entity.Description
import CoreForge.Json.Printer
import CoreForge.Yaml.Printer
/-!
# Running a command

A command reads files and answers with a document, on standard output or in a file.
Running it is a function of the files, so nothing happens besides what its outcome
says.
-/

namespace CoreForge

/-- Writes a document. -/
def Format.print : Format → Document → String
  | .json, d => Json.pretty d
  | .yaml, d => Yaml.print d

/-- What a command does. -/
structure Outcome where
  exit : Nat
  stdout : String
  /-- What is said about a failure. -/
  message : Option String
  /-- The path and the text of the file that is written. -/
  written : Option (String × String)
  /-- The files afterwards. -/
  files : Files

namespace Command

/-- The outcome of a failure. -/
def failed (files : Files) (e : Failure) : Outcome :=
  { exit := 1, stdout := "", message := some e.message, written := none, files }

/-- Puts a text out, on standard output with a line break behind it or into a file. -/
def emit (files : Files) (output : Option String) (text : String) : Outcome :=
  match output with
  | none => { exit := 0, stdout := text ++ "\n", message := none, written := none, files }
  | some path =>
    match files.write path text.toUTF8 with
    | .error e => failed files e
    | .ok files => { exit := 0, stdout := "", message := none, written := some (path, text), files }

/-- The document that a command answers with. -/
def document (files : Files) : Command → Except Failure Document
  | .generate c => do
    let options : CompileOptions := { strict := c.strict, validate := c.validate }
    let context ← (Context.compileFile (.new c.busLibrary) files c.input options).1
    if c.denyWarnings ∧ context.hasWarnings then .error (.issues c.input context.issues.length)
    else .ok context.encode
  | .parse c => do
    let source ← files.read c.input
    let entity ← Entity.parse source.toList c.detectBus
    .ok entity.toDescription.encode

/-- The format that a command answers in. -/
def format : Command → Format
  | .generate c => c.format
  | .parse c => c.format

/-- The file that a command writes. -/
def output : Command → Option String
  | .generate c => c.output
  | .parse c => c.output

/-- Carries a command out. -/
def run (files : Files) (c : Command) : Outcome :=
  match c.document files with
  | .error e => failed files e
  | .ok d => emit files c.output (c.format.print d)

/-- Carries a command line out. -/
def runLine (files : Files) (arguments : List String) : Outcome :=
  match read arguments with
  | .ok (c, _) => c.run files
  | .error .help => { exit := 0, stdout := usage ++ "\n", message := none, written := none, files }
  | .error .usage => { exit := 2, stdout := "", message := some usage, written := none, files }

/-! ## The files that a command looks at -/

/-- The files that a command names. -/
def namedPaths : Command → List String
  | .generate c => c.input :: (c.busLibrary.toList ++ c.output.toList)
  | .parse c => c.input :: c.output.toList

/-- The files that the description refers to, once the file with it is known. -/
def referredPaths (files : Files) : Command → List String
  | .generate c =>
    match files.loadDescription c.input with
    | .error _ => []
    | .ok d =>
      let maps :=
        match d.memoryMaps with
        | some (.imported path) => [path]
        | _ => []
      (maps ++ d.useBusLibrary.toList).map (Path.resolve (Path.parent c.input))
  | .parse _ => []

end Command

end CoreForge
