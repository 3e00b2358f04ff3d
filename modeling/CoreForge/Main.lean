import CoreForge.Command.Run
/-!
# The command line

The outer layer: it loads the files that a command looks at, runs the command, and
does what the outcome says.
-/

namespace CoreForge

/-- The failure that an error of the system is. -/
def failureOf (path : String) : IO.Error → Failure
  | .noFileOrDirectory .. => .missingFile path
  | _ => .io path

/-- Adds what stands at a path. What cannot be read is taken for a directory, which
cannot be read either. -/
def loadPath (files : Files) (path : String) : IO Files := do
  let place := files.placeOf path
  try
    let bytes ← IO.FS.readBinFile path
    return files.put place (.file bytes)
  catch e =>
    match failureOf path e with
    | .missingFile _ => return files
    | _ => return files.put place .directory

/-- Loads the files that a command looks at. The directory of the file that it writes is
taken to be there; the system says otherwise when the file is written. -/
def gather (c : Command) : IO Files := do
  let files ← c.namedPaths.foldlM loadPath Files.empty
  let files ← (c.referredPaths files).foldlM loadPath files
  match c.output with
  | none => return files
  | some path => return files.put (files.placeOf (Path.parent path)) .directory

/-- Does what an outcome says. -/
def perform (level : LogLevel) (outcome : Outcome) : IO UInt32 := do
  let complain (message : String) : IO Unit := if level = .off then pure () else IO.eprintln message
  IO.print outcome.stdout
  outcome.message.forM complain
  match outcome.written with
  | none => return UInt32.ofNat outcome.exit
  | some (path, text) =>
    try
      IO.FS.writeFile path text
      return UInt32.ofNat outcome.exit
    catch e =>
      complain (failureOf path e).message
      return 1

end CoreForge

/-- Runs the command line. -/
def main (arguments : List String) : IO UInt32 := do
  match CoreForge.Command.read arguments with
  | .ok (command, level) =>
    let files ← CoreForge.gather command
    CoreForge.perform level (command.run files)
  | .error _ => CoreForge.perform .warn (CoreForge.Command.runLine .empty arguments)
