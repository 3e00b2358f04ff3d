import CoreForge.Bus.Declaration
import CoreForge.Core.Identity
import CoreForge.Memory.Map
/-!
# Descriptions of IP cores

The top-level record of a description. Its memory maps are written inline or
imported from another document; which of the two is seen only after reading that
part as it comes.
-/

namespace CoreForge

open Document

/-- The memory maps of a description. -/
inductive MemoryMapSource
  | imported (path : String)
  | inline (maps : List MemoryMap)
deriving BEq, Repr, Inhabited

namespace MemoryMapSource

/-- How an import is written. -/
def importLayout : Layout := [⟨"import", [], .text⟩]

/-- Reads an import, which cannot be written as a list. -/
def decodeImport : Document → Option String
  | .object entries => do
    let fields ← Record.ofDocument? importLayout (.object entries)
    (fields.get? "import").bind readText
  | _ => none

/-- Reads the memory maps of a description. -/
def decode (d : Document) : Option MemoryMapSource :=
  (decodeImport d).map .imported <|> (readList MemoryMap.decode d).map .inline

/-- Writes the memory maps of a description. -/
def encode : MemoryMapSource → Document
  | .imported path => .object [entry "import" (.text path)]
  | .inline maps => .list (maps.map MemoryMap.encode)

end MemoryMapSource

/-- The description of an IP core. -/
structure Description where
  vlnv : Vlnv
  description : String
  /-- The bus library document to use. -/
  useBusLibrary : Option String
  parameters : List Parameter
  ports : List Port
  clocks : List Clock
  resets : List Reset
  busInterfaces : List BusDeclaration
  memoryMaps : Option MemoryMapSource
deriving BEq, Repr, Inhabited

namespace Description

/-- How a description is written. -/
def layout : Layout :=
  [ ⟨"vlnv", [], Vlnv.schema.shape⟩,
    ⟨"description", [], .text⟩,
    ⟨"useBusLibrary", ["use_bus_library", "busLibrary"], .optional .text⟩,
    ⟨"parameters", [], .list Parameter.schema.shape⟩,
    ⟨"ports", [], .list Port.schema.shape⟩,
    ⟨"clocks", [], .list Clock.schema.shape⟩,
    ⟨"resets", [], .list Reset.schema.shape⟩,
    ⟨"busInterfaces", ["bus_interfaces"], .list BusDeclaration.schema.shape⟩,
    ⟨"memoryMaps", ["memory_maps", "memoryMap", "memory_map"], .any⟩ ]

/-- Reads a description. -/
def decode (d : Document) : Option Description := do
  let fields ← Record.ofDocument? layout d
  let vlnv ← fields.field "vlnv" default Vlnv.decode
  let description ← fields.text "description"
  let useBusLibrary ← fields.optText "useBusLibrary"
  let parameters ← fields.list "parameters" Parameter.decode
  let ports ← fields.list "ports" Port.decode
  let clocks ← fields.list "clocks" Clock.decode
  let resets ← fields.list "resets" Reset.decode
  let busInterfaces ← fields.list "busInterfaces" BusDeclaration.decode
  let memoryMaps ← fields.field "memoryMaps" none (readOpt MemoryMapSource.decode)
  some { vlnv, description, useBusLibrary, parameters, ports, clocks, resets, busInterfaces, memoryMaps }

/-- Descriptions in a document. -/
def schema : Schema Description := .record layout decode

/-- Writes a description. -/
def encode (c : Description) : Document :=
  .object <|
    [entry "vlnv" c.vlnv.encode] ++
      entryIf (c.description ≠ "") "description" (.text c.description) ++
      entryOpt "useBusLibrary" .text c.useBusLibrary ++
      [entry "parameters" (.list (c.parameters.map Parameter.encode)),
        entry "ports" (.list (c.ports.map Port.encode)),
        entry "clocks" (.list (c.clocks.map Clock.encode)),
        entry "resets" (.list (c.resets.map Reset.encode)),
        entry "busInterfaces" (.list (c.busInterfaces.map BusDeclaration.encode))] ++
      entryOpt "memoryMaps" MemoryMapSource.encode c.memoryMaps

end Description

end CoreForge
