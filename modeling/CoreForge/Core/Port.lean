import CoreForge.Value.PortWidth
/-!
# Ports, clocks and resets

The signals of an IP core that its description lists. Directions are seen from
the core.
-/

namespace CoreForge

open Document

/-- The direction of a port. -/
inductive Direction
  | input
  | output
  | inout
deriving DecidableEq, Repr, Inhabited

namespace Direction

/-- The direction for one of its spellings. -/
def ofName? (s : String) : Option Direction :=
  if s ∈ ["in", "input", "IN", "In"] then some .input
  else if s ∈ ["out", "output", "OUT", "Out"] then some .output
  else if s ∈ ["inout", "in_out", "INOUT", "InOut", "bidir"] then some .inout
  else none

/-- The written form of a direction. -/
def name : Direction → String
  | .input => "in"
  | .output => "out"
  | .inout => "inout"

/-- The direction seen from the other side. -/
def flipped : Direction → Direction
  | .input => .output
  | .output => .input
  | .inout => .inout

/-- Reads a direction. -/
def decode (d : Document) : Option Direction := readChoice ofName? d

/-- Writes a direction. -/
def encode (d : Direction) : Document := .text d.name

end Direction

/-- The level at which a reset acts. -/
inductive Polarity
  | activeHigh
  | activeLow
deriving DecidableEq, Repr

namespace Polarity

instance : Inhabited Polarity := ⟨.activeLow⟩

/-- The polarity for one of its spellings. -/
def ofName? (s : String) : Option Polarity :=
  if s ∈ ["activeHigh", "active_high", "high", "ACTIVE_HIGH"] then some .activeHigh
  else if s ∈ ["activeLow", "active_low", "low", "ACTIVE_LOW"] then some .activeLow
  else none

/-- The written form of a polarity. -/
def name : Polarity → String
  | .activeHigh => "activeHigh"
  | .activeLow => "activeLow"

/-- Reads a polarity. -/
def decode (d : Document) : Option Polarity := readChoice ofName? d

/-- Writes a polarity. -/
def encode (p : Polarity) : Document := .text p.name

end Polarity

/-- A port of a core. -/
structure Port where
  name : String
  direction : Direction
  width : PortWidth
  description : String
deriving DecidableEq, Repr, Inhabited

/-- How a port is written. -/
def Port.layout : Layout :=
  [⟨"name", [], .text⟩, ⟨"direction", [], .choice⟩, ⟨"width", [], .any⟩, ⟨"description", [], .text⟩]

/-- Reads a port. -/
def Port.decode (d : Document) : Option Port := do
  let fields ← Record.ofDocument? layout d
  let name ← fields.text "name"
  let direction ← fields.field "direction" .input Direction.decode
  let width ← fields.field "width" (.fixed 1) PortWidth.decode
  let description ← fields.text "description"
  some { name, direction, width, description }

/-- Ports in a document. -/
def Port.schema : Schema Port := .record layout decode

/-- Writes a port. -/
def Port.encode (p : Port) : Document :=
  .object <|
    [entry "name" (.text p.name), entry "direction" p.direction.encode, entry "width" p.width.encode] ++
      entryIf (p.description ≠ "") "description" (.text p.description)

/-- A clock of a core. -/
structure Clock where
  name : String
  description : String
deriving DecidableEq, Repr, Inhabited

/-- How a clock is written. -/
def Clock.layout : Layout := [⟨"name", [], .text⟩, ⟨"description", [], .text⟩]

/-- Reads a clock. -/
def Clock.decode (d : Document) : Option Clock := do
  let fields ← Record.ofDocument? layout d
  let name ← fields.text "name"
  let description ← fields.text "description"
  some { name, description }

/-- Clocks in a document. -/
def Clock.schema : Schema Clock := .record layout decode

/-- Writes a clock. -/
def Clock.encode (c : Clock) : Document :=
  .object <| entry "name" (.text c.name) :: entryIf (c.description ≠ "") "description" (.text c.description)

/-- A reset of a core. -/
structure Reset where
  name : String
  polarity : Polarity
  description : String
deriving DecidableEq, Repr, Inhabited

/-- How a reset is written. -/
def Reset.layout : Layout := [⟨"name", [], .text⟩, ⟨"polarity", [], .choice⟩, ⟨"description", [], .text⟩]

/-- Reads a reset. -/
def Reset.decode (d : Document) : Option Reset := do
  let fields ← Record.ofDocument? layout d
  let name ← fields.text "name"
  let polarity ← fields.field "polarity" .activeLow Polarity.decode
  let description ← fields.text "description"
  some { name, polarity, description }

/-- Resets in a document. -/
def Reset.schema : Schema Reset := .record layout decode

/-- Writes a reset. -/
def Reset.encode (s : Reset) : Document :=
  .object <|
    [entry "name" (.text s.name), entry "polarity" s.polarity.encode] ++
      entryIf (s.description ≠ "") "description" (.text s.description)

end CoreForge
