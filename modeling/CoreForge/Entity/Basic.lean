import CoreForge.Entity.Role
import CoreForge.Failure
/-!
# Entities

An entity is read from the first declaration of a source text: its name, its
generics, and its ports with their roles.
-/

namespace CoreForge

open CoreForge.Text CoreForge.Entity

/-- A declared entity. -/
structure Entity where
  name : String
  generics : List GenericDecl
  ports : List ClassifiedPort
  buses : List DetectedBus
deriving Repr

namespace Entity

/-- Reads the first entity of a source text. -/
def parse (source : List Char) (detect : Bool) : Except Failure Entity :=
  match declaration? (stripComments source) with
  | none => .error .noEntity
  | some (name, rest) =>
    let region := region rest
    let (ports, buses) := classify (PortDecl.readAll (clauseBody "port".toList region)) detect
    .ok
      { name := String.ofList name
        generics := GenericDecl.readAll (clauseBody "generic".toList region)
        ports
        buses }

/-- The names of the clocks. -/
def clocks (e : Entity) : List String := (e.ports.filter (·.role = .clock)).map (·.port.name)

/-- The resets, by name. -/
def resets (e : Entity) : List (String × Polarity) :=
  e.ports.filterMap fun p =>
    match p.role with
    | .reset polarity => some (p.port.name, polarity)
    | _ => none

/-- The ports of their own. -/
def userPorts (e : Entity) : List PortDecl :=
  e.ports.filterMap fun p =>
    match p.role with
    | .user _ => some p.port
    | _ => none

/-- The ports of a bus interface. -/
def busPorts (e : Entity) (bus : String) : List PortDecl :=
  (e.ports.filter (·.role = .bus bus)).map (·.port)

/-- The port of a name, in any case. -/
def port? (e : Entity) (name : String) : Option ClassifiedPort :=
  e.ports.find? fun p => sameIgnoringCase p.port.name name

end Entity

end CoreForge
