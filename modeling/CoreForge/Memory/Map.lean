import CoreForge.Memory.Register
/-!
# Memory maps

A memory map is a list of address blocks, and an address block a list of
register declarations at a base address.
-/

namespace CoreForge

open CoreForge.Number Document

/-- A block of addresses with its registers. -/
structure AddressBlock where
  name : String
  description : String
  baseAddress : UInt64
  /-- The size in bytes, where it is given. -/
  range : Option UInt64
  usage : String
  /-- The width of a register word in bits; 0 stands for 32. -/
  defaultRegWidth : UInt32
  registers : List RegisterDecl
deriving BEq, Repr

namespace AddressBlock

/-- An empty block at an address. -/
def ofAddress (name : String) (baseAddress : UInt64) : AddressBlock :=
  { name, description := "", baseAddress, range := none, usage := "register", defaultRegWidth := 32,
    registers := [] }

instance : Inhabited AddressBlock := ⟨ofAddress "" 0⟩

/-- How a block is written. -/
def layout : Layout :=
  [ ⟨"name", [], .text⟩,
    ⟨"description", [], .text⟩,
    ⟨"baseAddress", ["base_address", "offset"], .lenient⟩,
    ⟨"range", ["size"], .lenient⟩,
    ⟨"usage", [], .text⟩,
    ⟨"defaultRegWidth", ["default_reg_width", "width"], .lenient⟩,
    ⟨"registers", [], .list RegisterDecl.schema.shape⟩ ]

/-- Reads a block. -/
def decode (d : Document) : Option AddressBlock := do
  let fields ← Record.ofDocument? layout d
  let name ← fields.text "name"
  let description ← fields.text "description"
  let baseAddress := fields.value "baseAddress" 0 number
  let range := fields.value "range" none number?
  let usage ← fields.field "usage" "register" readText
  let defaultRegWidth := fields.value "defaultRegWidth" 32 number32
  let registers ← fields.list "registers" RegisterDecl.decode
  some { name, description, baseAddress, range, usage, defaultRegWidth, registers }

/-- Blocks in a document. -/
def schema : Schema AddressBlock := .record layout decode

/-- Writes a block. -/
def encode (b : AddressBlock) : Document :=
  .object <|
    [entry "name" (.text b.name)] ++
      entryIf (b.description ≠ "") "description" (.text b.description) ++
      [entry "baseAddress" (.int b.baseAddress.toNat)] ++
      entryOpt "range" (fun n => .int n.toNat) b.range ++
      [entry "usage" (.text b.usage), entry "defaultRegWidth" (.int b.defaultRegWidth.toNat),
        entry "registers" (.list (RegisterDecl.encodeAll b.registers))]

end AddressBlock

/-- A memory map. -/
structure MemoryMap where
  name : String
  description : String
  addressBlocks : List AddressBlock
deriving BEq, Repr, Inhabited

namespace MemoryMap

/-- How a memory map is written. -/
def layout : Layout :=
  [ ⟨"name", [], .text⟩,
    ⟨"description", [], .text⟩,
    ⟨"addressBlocks", ["address_blocks", "blocks"], .list AddressBlock.schema.shape⟩ ]

/-- Reads a memory map. -/
def decode (d : Document) : Option MemoryMap := do
  let fields ← Record.ofDocument? layout d
  let name ← fields.text "name"
  let description ← fields.text "description"
  let addressBlocks ← fields.list "addressBlocks" AddressBlock.decode
  some { name, description, addressBlocks }

/-- Memory maps in a document. -/
def schema : Schema MemoryMap := .record layout decode

/-- Writes a memory map. -/
def encode (m : MemoryMap) : Document :=
  .object <|
    [entry "name" (.text m.name)] ++
      entryIf (m.description ≠ "") "description" (.text m.description) ++
      [entry "addressBlocks" (.list (m.addressBlocks.map AddressBlock.encode))]

/-- Reads a document of memory maps: a list of them, or a single one. -/
def decodeFile (d : Document) : Option (List MemoryMap) :=
  (readList decode d) <|> (decode d).map fun m => [m]

/-- Documents of memory maps. Which of the two forms a document has is seen only when all
of it has been read, so every scalar in it is read for what it says. -/
def fileSchema : Schema (List MemoryMap) := ⟨.any, decodeFile⟩

end MemoryMap

end CoreForge
