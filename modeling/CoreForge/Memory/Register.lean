import CoreForge.Memory.Field
/-!
# Registers

A register declaration is a leaf with bit fields, or a group of further
declarations. Either may be repeated `count` times, `stride` bytes apart.
-/

namespace CoreForge

open CoreForge.Number Document

/-- The bytes of one register word. -/
def wordBytes : UInt64 := 4

/-- A register, or a group of registers. -/
structure RegisterDecl where
  name : String
  offset : UInt64
  access : Option String
  description : String
  fields : List FieldDecl
  count : Option UInt64
  stride : Option UInt64
  registers : List RegisterDecl
deriving BEq, Repr, Inhabited

namespace RegisterDecl

/-- A register without fields. -/
def ofOffset (name : String) (offset : UInt64) : RegisterDecl :=
  { name, offset, access := none, description := "", fields := [], count := none, stride := none,
    registers := [] }

/-- The declaration holds further declarations. -/
def isGroup (r : RegisterDecl) : Bool := !r.registers.isEmpty

/-- The bytes that the declaration covers for placement: `count * stride` where
both are given and not zero, and one word otherwise. -/
def footprint (r : RegisterDecl) : UInt64 :=
  match r.count, r.stride with
  | some count, some stride =>
    let bytes := mulSat count stride
    if 0 < bytes then bytes else wordBytes
  | _, _ => wordBytes

/-- How a declaration is written whose own registers have a given shape. -/
def layoutOver (inner : Shape) : Layout :=
  [ ⟨"name", [], .text⟩,
    ⟨"offset", ["address_offset", "addressOffset", "address"], .lenient⟩,
    ⟨"access", [], .optional .text⟩,
    ⟨"description", [], .text⟩,
    ⟨"fields", [], .list FieldDecl.schema.shape⟩,
    ⟨"count", ["dim"], .lenient⟩,
    ⟨"stride", ["dim_increment", "dimIncrement"], .lenient⟩,
    ⟨"registers", [], .list inner⟩ ]

/-- The shape of a declaration that may nest `levels` deep; what is nested deeper is
read as it comes. -/
def shapeWithin : Nat → Shape
  | 0 => .any
  | levels + 1 => .record (layoutOver (shapeWithin levels))

/-- How a declaration is written. The names and the order of the fields are the same at
every level. -/
def layout : Layout := layoutOver .any

/-- Reads a declaration that may nest `levels` deep. -/
def decodeWithin : Nat → Document → Option RegisterDecl
  | 0, _ => none
  | levels + 1, d => do
    let fields ← Record.ofDocument? layout d
    let name ← fields.text "name"
    let offset := fields.value "offset" 0 number
    let access ← fields.optText "access"
    let description ← fields.text "description"
    let bits ← fields.list "fields" FieldDecl.decode
    let count := fields.value "count" none number?
    let stride := fields.value "stride" none number?
    let registers ← fields.list "registers" (decodeWithin levels)
    some { name, offset, access, description, fields := bits, count, stride, registers }

/-- Reads a declaration. The nesting of the document bounds the nesting of declarations
in it. -/
def decode (d : Document) : Option RegisterDecl := decodeWithin d.depth d

/-- Declarations in a document. A level of declarations takes two levels of the document,
and no text that can be read nests deeper than 128 levels. -/
def schema : Schema RegisterDecl := ⟨shapeWithin 64, decode⟩

mutual

/-- Writes a declaration. -/
def encode : RegisterDecl → Document
  | ⟨name, offset, access, description, fields, count, stride, registers⟩ =>
    .object <|
      [entry "name" (.text name), entry "offset" (.int offset.toNat)] ++
        entryOpt "access" .text access ++
        entryIf (description ≠ "") "description" (.text description) ++
        entryIf (!fields.isEmpty) "fields" (.list (fields.map FieldDecl.encode)) ++
        entryOpt "count" (fun n => .int n.toNat) count ++
        entryOpt "stride" (fun n => .int n.toNat) stride ++
        entryIf (!registers.isEmpty) "registers" (.list (encodeAll registers))

/-- Writes some declarations. -/
def encodeAll : List RegisterDecl → List Document
  | [] => []
  | r :: rs => encode r :: encodeAll rs

end

end RegisterDecl

end CoreForge
