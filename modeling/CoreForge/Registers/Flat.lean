import CoreForge.Memory.Map
/-!
# Flat registers

A flat register stands at its own byte address, with its fields at their bit
positions and its access spelled out.
-/

namespace CoreForge

open CoreForge.Number CoreForge.Text Document

/-- A bit field of a flat register. -/
structure FlatField where
  name : String
  offset : UInt32
  width : UInt32
  access : String
  resetValue : UInt64
  description : String
deriving DecidableEq, Repr, Inhabited

namespace FlatField

/-- The first bit after the field. -/
def stop (f : FlatField) : Nat := f.offset.toNat + f.width.toNat

/-- Writes a field. -/
def encode (f : FlatField) : Document :=
  .object <|
    [entry "name" (.text f.name), entry "offset" (.int f.offset.toNat), entry "width" (.int f.width.toNat),
      entry "access" (.text f.access), entry "reset_value" (.int f.resetValue.toNat)] ++
      entryIf (f.description ≠ "") "description" (.text f.description)

end FlatField

/-- A register at its address. -/
structure FlatRegister where
  name : String
  offset : UInt64
  /-- The width in bits. -/
  width : UInt32
  /-- The address block that it belongs to. -/
  block : String
  access : String
  description : String
  fields : List FlatField
deriving DecidableEq, Repr, Inhabited

namespace FlatRegister

/-- Software can write the register. -/
def isWritable (r : FlatRegister) : Bool := (cut? "write".toList r.access.toList).isSome

/-- The word whose lowest bits, as many as given, are set. -/
def lowBits (width : UInt32) : UInt64 := if 64 ≤ width then clamp64 max64 else (1 <<< width.toUInt64) - 1

/-- The value that a field contributes to its register after a reset. -/
def fieldReset (f : FlatField) : UInt64 :=
  if f.offset < 64 then (f.resetValue &&& lowBits f.width) <<< f.offset.toUInt64 else 0

/-- The value of the register after a reset, from those of its fields. -/
def resetValue (r : FlatRegister) : UInt64 := r.fields.foldl (fun value f => value ||| fieldReset f) 0

/-- The bytes that the register occupies, at least one. -/
def bytes (r : FlatRegister) : UInt64 := clamp64 (max ((r.width.toNat + 7) / 8) 1)

/-- The first byte after the register. -/
def stop (r : FlatRegister) : UInt64 := addSat r.offset r.bytes

/-- Writes a register. -/
def encode (r : FlatRegister) : Document :=
  .object <|
    [entry "name" (.text r.name), entry "offset" (.int r.offset.toNat), entry "width" (.int r.width.toNat),
      entry "block" (.text r.block), entry "access" (.text r.access)] ++
      entryIf (r.description ≠ "") "description" (.text r.description) ++
      [entry "fields" (.list (r.fields.map FlatField.encode))]

end FlatRegister

end CoreForge
