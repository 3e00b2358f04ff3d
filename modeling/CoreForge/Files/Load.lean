import CoreForge.Core.Description
import CoreForge.Files.Tree
/-!
# Descriptions in files

A description is read from a file, and its memory maps from it or from the file
that it refers to.
-/

namespace CoreForge

/-- Reads the description in a file. -/
def Files.loadDescription (files : Files) (path : String) : Except Failure Description :=
  files.readDocument Description.schema path

/-- Reads the memory maps in a file. -/
def Files.loadMaps (files : Files) (path : String) : Except Failure (List MemoryMap) :=
  files.readDocument MemoryMap.fileSchema path

/-- The memory maps of a description in a directory. -/
def Files.resolveMaps (files : Files) (directory : String) (source : Option MemoryMapSource) :
    Except Failure (List MemoryMap) :=
  match source with
  | none => .ok []
  | some (.inline maps) => .ok maps
  | some (.imported reference) =>
    let path := Path.resolve directory reference
    if files.isFile path then files.loadMaps path else .error (.missingImport path)

end CoreForge
