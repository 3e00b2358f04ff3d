import CoreForge.Core.Description
import CoreForge.Entity.Basic
/-!
# Descriptions of entities

A description can be rebuilt from an entity: what its declaration does not say is
left empty or set to a fixed value.
-/

namespace CoreForge.Entity

open CoreForge.Text

/-- The parameter for a generic. -/
def GenericDecl.parameter (g : GenericDecl) : Parameter :=
  { name := g.name
    dataType := g.type
    value := g.default.elim (.text "") ParameterValue.ofDeclaration
    description := "" }

/-- The port of a core for a port of an entity. -/
def PortDecl.corePort (p : PortDecl) : Port :=
  { name := p.name, direction := p.direction, width := p.width.toPortWidth, description := "" }

/-- The declaration of a detected bus interface. -/
def DetectedBus.declaration (b : DetectedBus) : BusDeclaration :=
  { (default : BusDeclaration) with
    name := b.name
    protocolType := b.protocol
    mode := b.mode
    physicalPrefix := some b.physicalPrefix }

/-- The description of an entity. -/
def toDescription (e : Entity) : Description :=
  { vlnv := { vendor := "user", library := "user", name := e.name, version := "1.0" }
    description := ""
    useBusLibrary := none
    parameters := e.generics.map GenericDecl.parameter
    ports := e.userPorts.map PortDecl.corePort
    clocks := e.clocks.map fun name => { name, description := "" }
    resets := e.resets.map fun (name, polarity) => { name, polarity, description := "" }
    busInterfaces := e.buses.map DetectedBus.declaration
    memoryMaps := none }

/-- The width is named after a generic of the entity. -/
def isGenericWidth (e : Entity) : PortWidth → Bool
  | .symbolic name => e.generics.any fun g => sameIgnoringCase g.name name
  | .fixed _ => false

end CoreForge.Entity
