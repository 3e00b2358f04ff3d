import CoreForge.Bus.Declaration
import CoreForge.Bus.Protocol
import CoreForge.Files.Tree
/-!
# Bus libraries

A bus library lists the ports of protocols. Names of known protocols are kept by
the key of the protocol, other names in upper case without separators.
-/

namespace CoreForge

open Document

/-- The ports of protocols, by key. -/
structure BusLibrary where
  protocols : SortedMap (List BusPort)
deriving BEq, Repr, Inhabited

namespace BusLibrary

/-- The key that a protocol is kept by. -/
def keyOf (name : String) : String :=
  match Protocol.ofName? name with
  | some p => p.key
  | none => Protocol.squash name

/-- The library of some definitions. Of several with one key, the one with the last
name counts. -/
def ofDefinitions (definitions : SortedMap (List BusPort)) : BusLibrary :=
  ⟨SortedMap.ofList (definitions.entries.map fun (name, ports) => (keyOf name, ports))⟩

/-- The ports of a protocol. -/
def ports? (library : BusLibrary) (key : String) : Option (List BusPort) := library.protocols.get? key

/-- Reads a library. -/
def decode (d : Document) : Option BusLibrary :=
  (readPairs decodeProtocol d).map fun pairs => ofDefinitions (SortedMap.ofList pairs)

/-- Libraries in a document. -/
def schema : Schema BusLibrary := ⟨.table protocolSchema.shape, decode⟩

/-- Writes a library. -/
def encode (library : BusLibrary) : Document :=
  .object (library.protocols.entries.map fun (key, ports) => entry key (.list (ports.map BusPort.encode)))

/-- Reads the library in a file. -/
def load (files : Files) (path : String) : Except Failure BusLibrary := files.readDocument schema path

end BusLibrary

end CoreForge
