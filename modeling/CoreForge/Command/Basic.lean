import CoreForge.Command.Arguments
import CoreForge.Document.Format
/-!
# Commands

The command line compiles the description in a file into a context (`generate`), or
rebuilds a description from the source of an entity (`parse`).
-/

namespace CoreForge

open CoreForge.Command CoreForge.Text

/-- How much is reported while a command runs. -/
inductive LogLevel
  | off
  | error
  | warn
  | info
  | debug
  | trace
deriving DecidableEq, Repr

namespace LogLevel

/-- The level of a name, in any case. -/
def ofName? (name : String) : Option LogLevel :=
  ([("off", .off), ("error", .error), ("warn", .warn), ("info", .info), ("debug", .debug), ("trace", .trace)].find?
    fun l => sameIgnoringCase l.1 name).map (·.2)

/-- The level for a number of requests to say more. -/
def ofVerbosity : Nat → LogLevel
  | 0 => .warn
  | 1 => .info
  | 2 => .debug
  | _ => .trace

end LogLevel

/-- What to compile, and how. -/
structure GenerateCommand where
  input : String
  /-- The file to write; standard output when there is none. -/
  output : Option String
  format : Format
  /-- The default bus library; the built-in one when there is none. -/
  busLibrary : Option String
  strict : Bool
  validate : Bool
  /-- Issues of the registers are a failure. -/
  denyWarnings : Bool
deriving DecidableEq, Repr

/-- What to rebuild a description from, and how. -/
structure ParseCommand where
  input : String
  /-- The file to write; standard output when there is none. -/
  output : Option String
  format : Format
  detectBus : Bool
deriving DecidableEq, Repr

/-- A command. -/
inductive Command
  | generate (c : GenerateCommand)
  | parse (c : ParseCommand)
deriving DecidableEq, Repr

namespace Command

/-! ## Options -/

/-- An option with a value that is a path. -/
def pathSpec (long : String) (short : Option Char) : OptionSpec := ⟨long, short, .value, (· ≠ "")⟩

/-- An option without a value. -/
def flagSpec (long : String) : OptionSpec := ⟨long, none, .flag, fun _ => true⟩

/-- A request for a text about the command line. -/
def helpSpec (long : String) (short : Char) : OptionSpec := ⟨long, some short, .help, fun _ => true⟩

/-- The options that every command has. -/
def commonOptions : List OptionSpec :=
  [ ⟨"verbose", some 'v', .counter, fun _ => true⟩,
    ⟨"log_level", none, .value, fun name => (LogLevel.ofName? name).isSome⟩,
    helpSpec "help" 'h' ]

/-- The options before a command. -/
def globalOptions : List OptionSpec := helpSpec "version" 'V' :: commonOptions

/-- The format of a name. -/
def formatOfName? (name : String) : Option Format :=
  if name = "json" then some .json else if name = "yaml" then some .yaml else none

/-- The options of commands that write a document. -/
def outputOptions : List OptionSpec :=
  [pathSpec "output" (some 'o'), ⟨"format", some 'f', .value, fun name => (formatOfName? name).isSome⟩]

/-- The options of `generate`. -/
def generateOptions : List OptionSpec :=
  commonOptions ++ outputOptions ++
    [pathSpec "bus_library" none, flagSpec "strict", flagSpec "no_validate", flagSpec "deny_warnings"]

/-- The options of `parse`. -/
def parseOptions : List OptionSpec := commonOptions ++ outputOptions ++ [flagSpec "no_bus_detect"]

/-! ## Reading a command -/

/-- The format that is asked for. -/
def formatOption (f : Found) (default : Format) : Format :=
  ((f.value? "format").bind formatOfName?).getD default

/-- The level that is asked for by name. -/
def levelOption (f : Found) : Option LogLevel := (f.value? "log_level").bind LogLevel.ofName?

/-- The options of a command and the one argument that it takes. -/
def readInput (specs : List OptionSpec) (arguments : List String) : Except Halt (Found × String) :=
  match readArguments specs 1 .options .empty arguments with
  | .error e => .error e
  | .ok (f, rest) =>
    match f.others, rest with
    | [input], [] => .ok (f, input)
    | _, _ => .error .usage

/-- Reads the arguments of `generate`. -/
def readGenerate (arguments : List String) : Except Halt (Found × Command) := do
  let (f, input) ← readInput generateOptions arguments
  return (f, .generate
    { input
      output := f.value? "output"
      format := formatOption f .json
      busLibrary := f.value? "bus_library"
      strict := f.has "strict"
      validate := !f.has "no_validate"
      denyWarnings := f.has "deny_warnings" })

/-- Reads the arguments of `parse`. -/
def readParse (arguments : List String) : Except Halt (Found × Command) := do
  let (f, input) ← readInput parseOptions arguments
  return (f, .parse
    { input
      output := f.value? "output"
      format := formatOption f .yaml
      detectBus := !f.has "no_bus_detect" })

/-- Reads a command line: the command, and how much it reports. -/
def read (arguments : List String) : Except Halt (Command × LogLevel) := do
  let (outer, rest) ← readArguments globalOptions 0 .options .empty arguments
  let (inner, command) ←
    match rest with
    | "generate" :: rest => readGenerate rest
    | "parse" :: rest => readParse rest
    | ["help"] | ["help", "generate"] | ["help", "parse"] => .error .help
    | _ => .error .usage
  let verbosity := outer.count "verbose" + inner.count "verbose"
  return (command, (levelOption inner <|> levelOption outer).getD (.ofVerbosity verbosity))

/-- What there is to say about the command line. -/
def usage : String :=
  "Usage: coreforge [-v] [--log_level LEVEL] COMMAND\n\n" ++
    "  generate INPUT [-o FILE] [-f json|yaml] [--bus_library FILE] [--strict] [--no_validate] [--deny_warnings]\n" ++
    "  parse INPUT [-o FILE] [-f json|yaml] [--no_bus_detect]"

end Command

end CoreForge
