import CoreForge.Entity.Vocabulary
/-!
# Roles of ports

A port of an entity belongs to a bus, is a clock, is a reset, or is a port of its
own. Bus members come first; clocks and resets are inputs that are named so.
-/

namespace CoreForge.Entity

open CoreForge.Text

/-- The name, in lower case, is one of the words, or ends with an underscore and one of
them. -/
def endsWithWord (words : List String) (name : List Char) : Bool :=
  words.any fun w =>
    match beforeEnd? w.toList name with
    | some before => before.isEmpty || before.getLast? = some '_'
    | none => false

/-- The names of clocks. -/
def clockWords : List String := ["clk", "clock", "aclk"]

/-- The names of resets. -/
def resetWords : List String := ["rst", "reset", "aresetn", "reset_n", "rst_n"]

/-- The name is that of a clock. -/
def isClockName (name : String) : Bool := endsWithWord clockWords (lower name).toList

/-- The polarity of a reset by its name; none when the name is not that of a reset. -/
def resetPolarity? (name : String) : Option Polarity :=
  let cs := (lower name).toList
  if endsWithWord resetWords cs then
    if cs.getLast? = some 'n' || (cut? "reset_n".toList cs).isSome || (cut? "rst_n".toList cs).isSome then
      some .activeLow
    else some .activeHigh
  else none

/-- The markers of direction that a name may start with, in the order in which they
are tried. -/
def directionMarkers : List String := ["IO_", "I_", "O_"]

/-- The logical name of a port: in upper case, without a marker of its direction unless
nothing would be left. -/
def logicalName (name : String) : String :=
  let cs := (upper name).toList
  let stripped := directionMarkers.findSome? fun m =>
    (afterStart? m.toList cs).bind fun rest => if rest.isEmpty then none else some rest
  String.ofList (stripped.getD cs)

/-- The role of a port. -/
inductive Role
  | clock
  | reset (polarity : Polarity)
  /-- A port of the named bus interface. -/
  | bus (name : String)
  /-- A port of its own, with its logical name. -/
  | user (logicalName : String)
deriving DecidableEq, Repr

/-- A port with its role. -/
structure ClassifiedPort where
  port : PortDecl
  role : Role
deriving DecidableEq, Repr

/-- The role of a port among some bus interfaces. -/
def roleAmong (buses : List DetectedBus) (p : PortDecl) : Role :=
  match buses.find? fun b => b.members.contains p.name with
  | some b => .bus b.name
  | none =>
    if p.direction = .input then
      if isClockName p.name then .clock
      else
        match resetPolarity? p.name with
        | some polarity => .reset polarity
        | none => .user (logicalName p.name)
    else .user (logicalName p.name)

/-- The ports with their roles, and the bus interfaces among them; without detection
there are none. -/
def classify (ports : List PortDecl) (detect : Bool) : List ClassifiedPort × List DetectedBus :=
  let buses := if detect then (detectBus? ports).toList else []
  (ports.map fun p => ⟨p, roleAmong buses p⟩, buses)

end CoreForge.Entity
