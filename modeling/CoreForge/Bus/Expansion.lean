import CoreForge.Bus.Library
/-!
# Instances of bus interfaces

A declared interface is expanded into its instances, one or as many as its array
has, each with its ports: those the library lists for the protocol, less the clock
and reset of the bus itself and less the optional ports that are not asked for.
-/

namespace CoreForge

open CoreForge.Number CoreForge.Text Document

/-- The ports of a bus for its own clock and reset. -/
def ownSignals : List String := ["ACLK", "ARESETN", "CLK", "CLOCK", "RESET", "RESET_N", "RST", "RST_N"]

/-- The port is the clock or reset of its bus. -/
def isOwnSignal (name : String) : Bool := ownSignals.any (sameIgnoringCase · name)

/-- The physical prefix of an interface that does not give one. -/
def defaultPrefix : String := "s_axi_"

/-- A port of an instance, its direction seen from the core. -/
structure InstancePort where
  logicalName : String
  name : String
  direction : Direction
  width : UInt32
  presence : Presence
deriving DecidableEq, Repr, Inhabited

/-- Writes a port of an instance. -/
def InstancePort.encode (p : InstancePort) : Document :=
  .object
    [entry "logical_name" (.text p.logicalName), entry "name" (.text p.name),
      entry "direction" p.direction.encode, entry "width" (.int p.width.toNat),
      entry "presence" p.presence.encode]

/-- An instance of a declared interface. -/
structure BusInstance where
  name : String
  /-- The protocol as declared. -/
  protocolType : String
  protocol : Protocol
  /-- The declared protocol is not known, and another one stands in for it. -/
  isFallback : Bool
  mode : BusMode
  physicalPrefix : String
  arrayIndex : Option UInt32
  /-- The position of the declaration in its description. -/
  declarationIndex : Nat
  associatedClock : Option String
  associatedReset : Option String
  ports : List InstancePort
deriving DecidableEq, Repr

/-- Writes an instance. -/
def BusInstance.encode (b : BusInstance) : Document :=
  .object <|
    [entry "name" (.text b.name), entry "protocol_type" (.text b.protocolType),
      entry "protocol_key" (.text b.protocol.key), entry "render_type" (.text b.protocol.tag),
      entry "protocol_fallback" (.bool b.isFallback), entry "mode" b.mode.encode,
      entry "physical_prefix" (.text b.physicalPrefix),
      entry "array_index" (orNull (fun n => .int n.toNat) b.arrayIndex),
      entry "declaration_index" (.int b.declarationIndex)] ++
      entryOpt "associated_clock" .text b.associatedClock ++
      entryOpt "associated_reset" .text b.associatedReset ++
      [entry "ports" (.list (b.ports.map InstancePort.encode))]

namespace BusDeclaration

/-- The protocol of a declaration, and whether it stands in for an unknown one; an
unknown protocol is refused in strict mode. -/
def protocol (d : BusDeclaration) (strict : Bool) : Except Failure (Protocol × Bool) :=
  match Protocol.ofName? d.protocolType with
  | some p => .ok (p, false)
  | none => if strict then .error (.unknownProtocol d.protocolType) else .ok (.axi4Lite, true)

/-- The interface has the port: it is no signal of the bus itself, and required or asked
for. -/
def hasPort (d : BusDeclaration) (p : BusPort) : Bool :=
  !isOwnSignal p.name && (p.presence = .required || d.usesOptional p.name)

/-- The port of an instance for a port of the protocol. -/
def instancePort (d : BusDeclaration) (physicalPrefix : String) (p : BusPort) : InstancePort :=
  { logicalName := p.name
    name := physicalPrefix ++ lower p.name
    direction :=
      match d.mode with
      | .master => p.direction
      | .slave => p.direction.flipped
    width := (d.widthOverride? p.name).getD p.width
    presence := p.presence }

/-- The ports of an instance. -/
def resolvePorts (d : BusDeclaration) (ports : List BusPort) (physicalPrefix : String) : List InstancePort :=
  (ports.filter d.hasPort).map (d.instancePort physicalPrefix)

/-- What stands for the index in a pattern. -/
def indexMark : List Char := "\x7bindex\x7d".toList

/-- A pattern with an index in it. -/
def fillIndex (pattern : String) (index : UInt32) : String :=
  String.ofList (replace indexMark (toString index.toNat).toList pattern.toList)

/-- The name, the physical prefix and the index of an instance. -/
structure Slot where
  name : String
  physicalPrefix : String
  index : Option UInt32
deriving DecidableEq, Repr

/-- The physical prefix of a declaration. -/
def basePrefix (d : BusDeclaration) : String := d.physicalPrefix.getD defaultPrefix

/-- The pattern of the names of an array. -/
def namePattern (d : BusDeclaration) (a : ArraySpec) : String :=
  a.namingPattern.getD (d.name ++ "_" ++ String.ofList indexMark)

/-- The pattern of the physical prefixes of an array. -/
def prefixPattern (d : BusDeclaration) (a : ArraySpec) : String :=
  a.physicalPrefixPattern.getD (d.basePrefix ++ String.ofList indexMark ++ "_")

/-- An instance of an array. -/
def arraySlot (d : BusDeclaration) (a : ArraySpec) (i : Nat) : Slot :=
  let index := clamp32 (a.indexStart.toNat + i)
  ⟨fillIndex (d.namePattern a) index, fillIndex (d.prefixPattern a) index, some index⟩

/-- The instances of a declaration. Every index of an array has to fit 32 bits. -/
def slots (d : BusDeclaration) : Except Failure (List Slot) :=
  match d.array with
  | none => .ok [⟨d.name, d.basePrefix, none⟩]
  | some a =>
    if a.indexStart.toNat + a.count.toNat ≤ max32 + 1 then .ok ((List.range a.count.toNat).map (d.arraySlot a))
    else .error (.indexOutOfRange d.name a.indexStart.toNat (max32 + 1 - a.indexStart.toNat))

/-- Expands a declaration at a position in its description. -/
def expand (d : BusDeclaration) (position : Nat) (library : BusLibrary) (strict : Bool) :
    Except Failure (List BusInstance) := do
  let (protocol, isFallback) ← d.protocol strict
  let ports := (library.ports? protocol.key).getD []
  let slots ← d.slots
  return slots.map fun slot =>
    { name := slot.name
      protocolType := d.protocolType
      protocol
      isFallback
      mode := d.mode
      physicalPrefix := slot.physicalPrefix
      arrayIndex := slot.index
      declarationIndex := position
      associatedClock := d.associatedClock
      associatedReset := d.associatedReset
      ports := d.resolvePorts ports slot.physicalPrefix }

/-- Expands the declarations of a description, in order. -/
def expandAll (ds : List BusDeclaration) (library : BusLibrary) (strict : Bool) :
    Except Failure (List BusInstance) := do
  let instances ← ds.zipIdx.mapM fun (d, position) => d.expand position library strict
  return instances.flatten

end BusDeclaration

namespace BusInstance

/-- The ports of the primary interface, which is the first instance of the first
declaration. -/
def primaryPorts : List BusInstance → List InstancePort
  | [] => []
  | b :: _ => if b.declarationIndex = 0 then b.ports else []

/-- The ports of all other interfaces. -/
def secondaryPorts : List BusInstance → List InstancePort
  | [] => []
  | b :: bs => (if b.declarationIndex = 0 then [] else b.ports) ++ bs.flatMap (·.ports)

end BusInstance

end CoreForge
