import CoreForge.Bits.Span
import CoreForge.Value.Lenient
/-!
# Bit fields

A field declaration may give its position by a bit range, by an offset and a
width, or by both. Offset and width together come first, then a readable range,
then whatever offset or width there is, with 0 and 1 for the missing one.
-/

namespace CoreForge

open CoreForge.Number Document

/-- A declared bit field of a register. -/
structure FieldDecl where
  name : String
  /-- The bit range as written. -/
  bits : Option String
  bitOffset : Option UInt64
  bitWidth : Option UInt64
  access : Option String
  resetValue : Option UInt64
  description : String
deriving DecidableEq, Repr, Inhabited

namespace FieldDecl

/-- A field of a given position and width. -/
def ofSpan (name : String) (offset width : UInt64) : FieldDecl :=
  { name, bits := none, bitOffset := some offset, bitWidth := some width, access := none,
    resetValue := none, description := "" }

/-- The bits of a field. -/
def span (f : FieldDecl) : BitSpan :=
  match f.bitOffset, f.bitWidth with
  | some offset, some width => ⟨clamp32 offset.toNat, clamp32 width.toNat⟩
  | offset, width =>
    (f.bits.bind BitSpan.ofString?).getD
      ⟨clamp32 (offset.getD 0).toNat, clamp32 (width.getD 1).toNat⟩

/-- Moves a field to another bit, keeping the notation of its declaration. -/
def setOffset (f : FieldDecl) (offset : UInt32) : FieldDecl :=
  let width := f.span.width
  let bits := f.bits.map fun _ => (BitSpan.mk offset width).render
  if f.bits.isSome ∧ f.bitOffset.isNone then { f with bits }
  else
    { f with
      bits
      bitOffset := some (clamp64 offset.toNat)
      bitWidth := some (clamp64 width.toNat) }

/-- How a field is written. -/
def layout : Layout :=
  [ ⟨"name", [], .text⟩,
    ⟨"bits", ["bit_range", "bitRange"], .lenient⟩,
    ⟨"offset", ["bit_offset", "bitOffset"], .lenient⟩,
    ⟨"width", ["bit_width", "bitWidth"], .lenient⟩,
    ⟨"access", [], .optional .text⟩,
    ⟨"resetValue", ["reset_value", "reset"], .lenient⟩,
    ⟨"description", [], .text⟩ ]

/-- Reads a field. -/
def decode (d : Document) : Option FieldDecl := do
  let fields ← Record.ofDocument? layout d
  let name ← fields.text "name"
  let bits := fields.value "bits" none bitsText?
  let bitOffset := fields.value "offset" none number?
  let bitWidth := fields.value "width" none number?
  let access ← fields.optText "access"
  let resetValue := fields.value "resetValue" none number?
  let description ← fields.text "description"
  some { name, bits, bitOffset, bitWidth, access, resetValue, description }

/-- Fields in a document. -/
def schema : Schema FieldDecl := .record layout decode

/-- Writes a field. -/
def encode (f : FieldDecl) : Document :=
  .object <|
    [entry "name" (.text f.name)] ++
      entryOpt "bits" .text f.bits ++
      entryOpt "offset" (fun n => .int n.toNat) f.bitOffset ++
      entryOpt "width" (fun n => .int n.toNat) f.bitWidth ++
      entryOpt "access" .text f.access ++
      entryOpt "resetValue" (fun n => .int n.toNat) f.resetValue ++
      entryIf (f.description ≠ "") "description" (.text f.description)

end FieldDecl

end CoreForge
