import CoreForge.Registers.Flat
/-!
# Unrolling register declarations

Every declaration of a memory map is unrolled into the registers it stands for: a
group is repeated with its index in the names of its registers, and a repeated
register has its index behind its name. Addresses add up along the way. The
registers are listed by address, those at one address in order of declaration.
-/

namespace CoreForge

open CoreForge.Number CoreForge.Text

/-- The access of a register that says nothing about it. -/
def defaultAccess : String := "read-write"

/-- An access as it is written: trimmed and in lower case, and the default when
nothing is left. -/
def normalizeAccess (access : Option String) : String :=
  let cs := trim (access.getD "").toList
  if cs.isEmpty then defaultAccess else lower (String.ofList cs)

/-- What a declaration inherits from those around it. -/
structure Surroundings where
  /-- The start of the names. -/
  stem : String
  /-- The nearest access around the declaration. -/
  access : Option String
  block : String
  /-- The width of registers in bits. -/
  width : UInt32
deriving DecidableEq, Repr

/-- A field with its access spelled out. -/
def FieldDecl.flatten (registerAccess : String) (f : FieldDecl) : FlatField :=
  let span := f.span
  { name := f.name
    offset := span.offset
    width := span.width
    access := f.access.elim registerAccess fun a => normalizeAccess (some a)
    resetValue := f.resetValue.getD 0
    description := f.description }

/-- The name of one repetition; of a single one, without an index. -/
def instanceName (name : String) (count index : Nat) : String :=
  if 1 < count then name ++ "_" ++ toString index else name

/-- The address of one repetition. -/
def instanceOffset (offset stride : UInt64) (index : Nat) : UInt64 :=
  addSat offset (mulSat (clamp64 index) stride)

namespace RegisterDecl

mutual

/-- The registers that a declaration at an address stands for. -/
def instances (around : Surroundings) (address : UInt64) : RegisterDecl → List FlatRegister
  | ⟨name, _, access, description, fields, count, stride, registers⟩ =>
    let access := access <|> around.access
    let count := (count.getD 1).toNat
    let stride := stride.getD 0
    if registers.isEmpty then
      let access := normalizeAccess access
      (List.range (max count 1)).map fun i =>
        { name := around.stem ++ instanceName name count i
          offset := instanceOffset address stride i
          width := around.width
          block := around.block
          access
          description
          fields := fields.map (FieldDecl.flatten access) }
    else
      (List.range count).flatMap fun i =>
        instancesAll
          { around with stem := around.stem ++ instanceName name count i ++ "_", access }
          (instanceOffset address stride i) registers

/-- The registers that some declarations below an address stand for. -/
def instancesAll (around : Surroundings) (base : UInt64) : List RegisterDecl → List FlatRegister
  | [] => []
  | r :: rs => instances around (addSat base r.offset) r ++ instancesAll around base rs

end

end RegisterDecl

namespace AddressBlock

/-- The width of the registers of a block in bits. -/
def registerWidth (b : AddressBlock) : UInt32 := if b.defaultRegWidth = 0 then 32 else b.defaultRegWidth

/-- The registers of a block, in order of declaration. -/
def unroll (b : AddressBlock) : List FlatRegister :=
  RegisterDecl.instancesAll { stem := "", access := none, block := b.name, width := b.registerWidth }
    b.baseAddress b.registers

end AddressBlock

namespace MemoryMap

/-- The registers of some memory maps, in order of declaration. -/
def unrollAll (maps : List MemoryMap) : List FlatRegister :=
  maps.flatMap fun m => m.addressBlocks.flatMap AddressBlock.unroll

/-- The registers of some memory maps, by address. -/
def flatten (maps : List MemoryMap) : List FlatRegister :=
  (unrollAll maps).mergeSort fun a b => a.offset ≤ b.offset

end MemoryMap

end CoreForge
