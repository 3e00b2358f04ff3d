import CoreForge.Memory.Map
/-!
# Placed items

Fields lie in a register, registers in an address block, and address blocks in a
memory map. Each has a start and a footprint on its axis: bits for fields, bytes
for the others.
-/

namespace CoreForge

open CoreForge.Number CoreForge.Text

/-- Items with a place on an axis. -/
class Placed (α : Type) where
  /-- The stem of the names of new items. -/
  kind : String
  name : α → String
  start : α → UInt64
  footprint : α → UInt64
  /-- The item at another start. -/
  moveTo : α → UInt64 → α
  /-- A new item. -/
  create : String → UInt64 → α

namespace Placed

variable {α : Type} [Placed α]

/-- The first position after an item. -/
def stop (x : α) : UInt64 := addSat (start x) (footprint x)

/-- The number that follows the kind in a name, with an optional plus sign. -/
def suffix? (α : Type) [Placed α] (s : String) : Option UInt64 := do
  let rest ← afterStart? (kind α).toList s.toList
  match rest with
  | '+' :: ds => plainWord? ds
  | ds => plainWord? ds

/-- A name for a new item: the kind, and one more than the largest number that
follows the kind in a name. The number behind the largest word is 0. -/
def nextName (items : List α) : String :=
  let numbers := items.filterMap fun x => (suffix? α (name x)).map UInt64.toNat
  kind α ++ toString (wrap64 (numbers.max?.getD 0 + 1))

end Placed

instance : Placed FieldDecl where
  kind := "field"
  name f := f.name
  start f := clamp64 f.span.offset.toNat
  footprint f := clamp64 f.span.width.toNat
  moveTo f start := f.setOffset (clamp32 start.toNat)
  create name start := FieldDecl.ofSpan name start 1

instance : Placed RegisterDecl where
  kind := "reg"
  name r := r.name
  start r := r.offset
  footprint r := r.footprint
  moveTo r start := { r with offset := start }
  create name start := RegisterDecl.ofOffset name start

/-- The size of an address block that neither gives one nor has registers. -/
def defaultBlockRange : UInt64 := 0x1000

/-- The bytes that a block covers for placement: its size where one is given, one
word for each register where there are some, and a default otherwise. -/
def AddressBlock.footprint (b : AddressBlock) : UInt64 :=
  let size := b.range.getD 0
  if 0 < size then size
  else if b.registers.isEmpty then defaultBlockRange
  else mulSat (clamp64 b.registers.length) wordBytes

instance : Placed AddressBlock where
  kind := "block"
  name b := b.name
  start b := b.baseAddress
  footprint b := b.footprint
  moveTo b start := { b with baseAddress := start }
  create name start := AddressBlock.ofAddress name start

end CoreForge
