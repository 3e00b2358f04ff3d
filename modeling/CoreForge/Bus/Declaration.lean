import CoreForge.Core.Port
import CoreForge.Collection.SortedMap
/-!
# Bus interfaces as declared

What a description says about a bus interface, and what a bus library says about
a protocol. Directions in a library are seen from the master.
-/

namespace CoreForge

open CoreForge.Text Document

/-- The side of a bus that a core takes. -/
inductive BusMode
  | master
  | slave
deriving DecidableEq, Repr

namespace BusMode

instance : Inhabited BusMode := ⟨.slave⟩

/-- The mode for one of its spellings. -/
def ofName? (s : String) : Option BusMode :=
  if s ∈ ["master", "MASTER", "Master", "initiator", "manager"] then some .master
  else if s ∈ ["slave", "SLAVE", "Slave", "target", "subordinate"] then some .slave
  else none

/-- The written form of a mode. -/
def name : BusMode → String
  | .master => "master"
  | .slave => "slave"

/-- Reads a mode. -/
def decode (d : Document) : Option BusMode := readChoice ofName? d

/-- Writes a mode. -/
def encode (m : BusMode) : Document := .text m.name

end BusMode

/-- Whether every interface of a protocol has a port. -/
inductive Presence
  | required
  | optional
deriving DecidableEq, Repr, Inhabited

namespace Presence

/-- The presence for one of its spellings. -/
def ofName? (s : String) : Option Presence :=
  if s ∈ ["required", "REQUIRED", "Required", "mandatory"] then some .required
  else if s ∈ ["optional", "OPTIONAL", "Optional"] then some .optional
  else none

/-- The written form of a presence. -/
def name : Presence → String
  | .required => "required"
  | .optional => "optional"

/-- Reads a presence. -/
def decode (d : Document) : Option Presence := readChoice ofName? d

/-- Writes a presence. -/
def encode (p : Presence) : Document := .text p.name

end Presence

/-- The instances of an interface that is declared as an array. -/
structure ArraySpec where
  count : UInt32
  indexStart : UInt32
  /-- The instance name, with `{index}` for the index. -/
  namingPattern : Option String
  /-- The physical prefix, with `{index}` for the index. -/
  physicalPrefixPattern : Option String
deriving DecidableEq, Repr

instance : Inhabited ArraySpec := ⟨⟨1, 0, none, none⟩⟩

/-- How an array of instances is written. -/
def ArraySpec.layout : Layout :=
  [ ⟨"count", [], .lenient⟩,
    ⟨"indexStart", ["index_start"], .lenient⟩,
    ⟨"namingPattern", ["naming_pattern"], .optional .text⟩,
    ⟨"physicalPrefixPattern", ["physical_prefix_pattern"], .optional .text⟩ ]

/-- Reads an array of instances. -/
def ArraySpec.decode (d : Document) : Option ArraySpec := do
  let fields ← Record.ofDocument? layout d
  let count := fields.value "count" 1 number32
  let indexStart := fields.value "indexStart" 0 number32
  let namingPattern ← fields.optText "namingPattern"
  let physicalPrefixPattern ← fields.optText "physicalPrefixPattern"
  some { count, indexStart, namingPattern, physicalPrefixPattern }

/-- Arrays of instances in a document. -/
def ArraySpec.schema : Schema ArraySpec := .record layout decode

/-- Writes an array of instances. -/
def ArraySpec.encode (a : ArraySpec) : Document :=
  .object <|
    [entry "count" (.int a.count.toNat), entry "indexStart" (.int a.indexStart.toNat)] ++
      entryOpt "namingPattern" .text a.namingPattern ++
      entryOpt "physicalPrefixPattern" .text a.physicalPrefixPattern

/-- A declared bus interface. -/
structure BusDeclaration where
  name : String
  /-- The protocol as written. -/
  protocolType : String
  mode : BusMode
  physicalPrefix : Option String
  /-- The optional ports that the interface has. -/
  useOptionalPorts : List String
  portWidthOverrides : SortedMap UInt32
  array : Option ArraySpec
  associatedClock : Option String
  associatedReset : Option String
deriving BEq, Repr

namespace BusDeclaration

instance : Inhabited BusDeclaration := ⟨⟨"", "", .slave, none, [], .empty, none, none, none⟩⟩

/-- The interface has the optional port of this name. -/
def usesOptional (b : BusDeclaration) (port : String) : Bool :=
  b.useOptionalPorts.any (sameIgnoringCase · port)

/-- The width that the interface gives the port of this name. -/
def widthOverride? (b : BusDeclaration) (port : String) : Option UInt32 :=
  (b.portWidthOverrides.entries.find? (sameIgnoringCase ·.1 port)).map (·.2)

/-- Reads a table of widths; null is the empty table. -/
def decodeWidths (d : Document) : Option (SortedMap UInt32) := do
  let pairs ← readOpt (readPairs readTableWidth) d
  some (SortedMap.ofList (pairs.getD []))

/-- Tables of widths in a document. -/
def widthsSchema : Schema (SortedMap UInt32) := ⟨.optional (.table .any), decodeWidths⟩

/-- How a declared interface is written. -/
def layout : Layout :=
  [ ⟨"name", [], .text⟩,
    ⟨"type", ["protocolType", "protocol_type", "protocol"], .text⟩,
    ⟨"mode", [], .choice⟩,
    ⟨"physicalPrefix", ["physical_prefix", "prefix"], .optional .text⟩,
    ⟨"useOptionalPorts", ["use_optional_ports", "optionalPorts"], .list .text⟩,
    ⟨"portWidthOverrides", ["port_width_overrides", "portWidths"], widthsSchema.shape⟩,
    ⟨"array", [], .optional ArraySpec.schema.shape⟩,
    ⟨"associatedClock", ["associated_clock"], .optional .text⟩,
    ⟨"associatedReset", ["associated_reset"], .optional .text⟩ ]

/-- Reads a declared interface. -/
def decode (d : Document) : Option BusDeclaration := do
  let fields ← Record.ofDocument? layout d
  let name ← fields.text "name"
  let protocolType ← fields.text "type"
  let mode ← fields.field "mode" .slave BusMode.decode
  let physicalPrefix ← fields.optText "physicalPrefix"
  let useOptionalPorts ← fields.list "useOptionalPorts" readText
  let portWidthOverrides ← fields.field "portWidthOverrides" .empty decodeWidths
  let array ← fields.field "array" none (readOpt ArraySpec.decode)
  let associatedClock ← fields.optText "associatedClock"
  let associatedReset ← fields.optText "associatedReset"
  some { name, protocolType, mode, physicalPrefix, useOptionalPorts, portWidthOverrides, array,
         associatedClock, associatedReset }

/-- Declared interfaces in a document. -/
def schema : Schema BusDeclaration := .record layout decode

/-- Writes a table of widths. -/
def encodeWidths (m : SortedMap UInt32) : Document :=
  .object (m.entries.map fun (k, w) => entry k (.int w.toNat))

/-- Writes a declared interface. -/
def encode (b : BusDeclaration) : Document :=
  .object <|
    [entry "name" (.text b.name), entry "type" (.text b.protocolType), entry "mode" b.mode.encode] ++
      entryOpt "physicalPrefix" .text b.physicalPrefix ++
      entryIf (!b.useOptionalPorts.isEmpty) "useOptionalPorts" (.list (b.useOptionalPorts.map .text)) ++
      entryIf (!b.portWidthOverrides.isEmpty) "portWidthOverrides" (encodeWidths b.portWidthOverrides) ++
      entryOpt "array" ArraySpec.encode b.array ++
      entryOpt "associatedClock" .text b.associatedClock ++
      entryOpt "associatedReset" .text b.associatedReset

end BusDeclaration

/-- A port of a protocol, its direction seen from the master. -/
structure BusPort where
  name : String
  width : UInt32
  direction : Direction
  presence : Presence
deriving DecidableEq, Repr

instance : Inhabited BusPort := ⟨⟨"", 1, .output, .required⟩⟩

/-- How a port of a protocol is written. -/
def BusPort.layout : Layout :=
  [⟨"name", [], .text⟩, ⟨"width", [], .lenient⟩, ⟨"direction", [], .choice⟩, ⟨"presence", [], .choice⟩]

/-- Reads a port of a protocol. -/
def BusPort.decode (d : Document) : Option BusPort := do
  let fields ← Record.ofDocument? layout d
  let name ← fields.text "name"
  let width := fields.value "width" 1 number32
  let direction ← fields.field "direction" .output Direction.decode
  let presence ← fields.field "presence" .required Presence.decode
  some { name, width, direction, presence }

/-- Ports of protocols in a document. -/
def BusPort.schema : Schema BusPort := .record layout decode

/-- Writes a port of a protocol. -/
def BusPort.encode (p : BusPort) : Document :=
  .object
    [entry "name" (.text p.name), entry "width" (.int p.width.toNat), entry "direction" p.direction.encode,
      entry "presence" p.presence.encode]

/-- How the ports of one protocol are written in a library document. -/
def protocolLayout : Layout := [⟨"ports", [], .list BusPort.schema.shape⟩]

/-- Reads what a library document says about one protocol: its ports. -/
def decodeProtocol (d : Document) : Option (List BusPort) := do
  let fields ← Record.ofDocument? protocolLayout d
  fields.list "ports" BusPort.decode

/-- The ports of one protocol in a library document. -/
def protocolSchema : Schema (List BusPort) := .record protocolLayout decodeProtocol

end CoreForge
