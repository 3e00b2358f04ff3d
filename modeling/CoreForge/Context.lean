import CoreForge.Bus.Cache
import CoreForge.Bus.Expansion
import CoreForge.Files.Load
import CoreForge.Registers.Issue
/-!
# Contexts

A description is compiled into a context: everything that is needed to generate the
sources of the core, with nothing left to look up.
-/

namespace CoreForge

open Document

/-- The settings of a compilation. -/
structure CompileOptions where
  /-- An unknown protocol is a failure. -/
  strict : Bool
  /-- The registers are checked. -/
  validate : Bool
deriving DecidableEq, Repr

/-- A port of the core, with the number of its bits where it is known. -/
structure ContextPort where
  port : Port
  resolvedWidth : Option UInt32
deriving DecidableEq, Repr, Inhabited

/-- Writes a port of the core. -/
def ContextPort.encode (p : ContextPort) : Document :=
  .object <|
    [entry "name" (.text p.port.name), entry "direction" p.port.direction.encode,
      entry "width" p.port.width.encode,
      entry "resolved_width" (orNull (fun n => .int n.toNat) p.resolvedWidth)] ++
      entryIf (p.port.description ≠ "") "description" (.text p.port.description)

/-- A compiled description. -/
structure Context where
  description : Description
  memoryMaps : List MemoryMap
  registers : List FlatRegister
  busInstances : List BusInstance
  issues : List Issue
deriving Repr

namespace Context

/-- The width of data, addresses and registers in bits. -/
def wordWidth : Nat := 32

/-- The registers that software writes. -/
def softwareRegisters (c : Context) : List FlatRegister := c.registers.filter (·.isWritable)

/-- The registers that software only reads. -/
def hardwareRegisters (c : Context) : List FlatRegister := c.registers.filter fun r => !r.isWritable

/-- The ports of the core that belong to no bus. -/
def userPorts (c : Context) : List ContextPort :=
  c.description.ports.map fun p => ⟨p, p.width.resolve? (parameterValues c.description.parameters)⟩

/-- The names of the clocks. -/
def clocks (c : Context) : List String := c.description.clocks.map (·.name)

/-- The names of the resets. -/
def resets (c : Context) : List String := c.description.resets.map (·.name)

/-- The name of the core. -/
def entityName (c : Context) : String := c.description.vlnv.name

/-- The clock that the sources of the core use, the first one. -/
def clockPort (c : Context) : Option String := c.clocks.head?

/-- The reset that the sources of the core use, the first one. -/
def resetPort (c : Context) : Option String := c.resets.head?

/-- The first reset acts on the high level. -/
def resetActiveHigh (c : Context) : Bool :=
  match c.description.resets with
  | [] => false
  | r :: _ => r.polarity = .activeHigh

/-- Some issue was found. -/
def hasWarnings (c : Context) : Bool := !c.issues.isEmpty

/-- Compiles a description whose memory maps and library are at hand. -/
def build (description : Description) (memoryMaps : List MemoryMap) (library : BusLibrary)
    (options : CompileOptions) : Except Failure Context := do
  let busInstances ← BusDeclaration.expandAll description.busInterfaces library options.strict
  let registers := MemoryMap.flatten memoryMaps
  let issues := if options.validate then CoreForge.validate memoryMaps registers else []
  return { description, memoryMaps, registers, busInstances, issues }

/-- Compiles a description in a directory. -/
def compile (cache : LibraryCache) (files : Files) (description : Description) (directory : String)
    (options : CompileOptions) : Except Failure Context × LibraryCache :=
  match files.resolveMaps directory description.memoryMaps with
  | .error e => (.error e, cache)
  | .ok memoryMaps =>
    match cache.resolve files (description.useBusLibrary.map (Path.resolve directory)) with
    | (.error e, cache) => (.error e, cache)
    | (.ok library, cache) => (build description memoryMaps library options, cache)

/-- Compiles the description in a file. What it refers to is looked for in the directory of
the file. -/
def compileFile (cache : LibraryCache) (files : Files) (path : String) (options : CompileOptions) :
    Except Failure Context × LibraryCache :=
  match files.loadDescription path with
  | .error e => (.error e, cache)
  | .ok description => compile cache files description (Path.parent path) options

/-- Writes a context. -/
def encode (c : Context) : Document :=
  let registers (rs : List FlatRegister) : Document := .list (rs.map FlatRegister.encode)
  let ports (ps : List InstancePort) : Document := .list (ps.map InstancePort.encode)
  let names (ns : List String) : Document := .list (ns.map .text)
  .object
    [ entry "entity_name" (.text c.entityName),
      entry "vlnv" c.description.vlnv.encode,
      entry "description" (.text c.description.description),
      entry "registers" (registers c.registers),
      entry "sw_registers" (registers c.softwareRegisters),
      entry "hw_registers" (registers c.hardwareRegisters),
      entry "generics" (.list (c.description.parameters.map Parameter.encode)),
      entry "user_ports" (.list (c.userPorts.map ContextPort.encode)),
      entry "primary_bus_ports" (ports (BusInstance.primaryPorts c.busInstances)),
      entry "secondary_bus_ports" (ports (BusInstance.secondaryPorts c.busInstances)),
      entry "bus_interfaces" (.list (c.busInstances.map BusInstance.encode)),
      entry "data_width" (.int wordWidth),
      entry "addr_width" (.int wordWidth),
      entry "reg_width" (.int wordWidth),
      entry "clock_port" (orNull .text c.clockPort),
      entry "reset_port" (orNull .text c.resetPort),
      entry "reset_active_high" (.bool c.resetActiveHigh),
      entry "clocks" (names c.clocks),
      entry "resets" (names c.resets),
      entry "memory_maps" (.list (c.memoryMaps.map MemoryMap.encode)),
      entry "diagnostics" (.list (c.issues.map Issue.encode)) ]

end Context

end CoreForge
