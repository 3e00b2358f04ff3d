import CoreForge.Registers.Flatten
/-!
# Issues of a register model

What is wrong with the layout of some memory maps: repetitions that overlap their
neighbours, registers that share bytes, and fields that share bits or leave their
register. Nothing is changed; the issues are listed.
-/

namespace CoreForge

open CoreForge.Number Document

/-- Something wrong with a register model. -/
inductive Issue
  /-- The repetitions of a declaration are closer together than its size. -/
  | strideTooSmall (path : String) (stride size : UInt64)
  /-- A register has the address of an earlier one. -/
  | duplicateOffset (earlier register : FlatRegister)
  /-- A register starts inside an earlier one. -/
  | registerOverlap (earlier register : FlatRegister)
  /-- A field leaves its register. -/
  | fieldOutOfBounds (register : FlatRegister) (field : FlatField)
  /-- A field starts inside an earlier one. -/
  | fieldOverlap (register : FlatRegister) (earlier field : FlatField)
deriving DecidableEq, Repr

namespace Issue

/-- The name of the kind of an issue. -/
def kindName : Issue → String
  | .strideTooSmall .. => "stride_too_small"
  | .duplicateOffset .. => "duplicate_offset"
  | .registerOverlap .. => "register_overlap"
  | .fieldOutOfBounds .. => "field_out_of_bounds"
  | .fieldOverlap .. => "field_overlap"

/-- A number in hexadecimal notation. -/
def hexText (n : UInt64) : String := "0x" ++ hex n

/-- The issue in words. -/
def message : Issue → String
  | .strideTooSmall path stride size =>
    path ++ ": stride " ++ hexText stride ++ " smaller than instance footprint " ++ hexText size
  | .duplicateOffset earlier register =>
    earlier.name ++ " and " ++ register.name ++ " share offset " ++ hexText register.offset
  | .registerOverlap earlier register =>
    register.name ++ " at " ++ hexText register.offset ++ " overlaps " ++ earlier.name ++ " at " ++
      hexText earlier.offset
  | .fieldOutOfBounds register field =>
    register.name ++ "." ++ field.name ++ ": bits [" ++ toString field.offset.toNat ++ "+:" ++
      toString field.width.toNat ++ "] outside of " ++ toString register.width.toNat ++ "-bit register"
  | .fieldOverlap register earlier field =>
    register.name ++ ": field " ++ field.name ++ " overlaps field " ++ earlier.name

/-- Writes an issue. -/
def encode (i : Issue) : Document := .object [entry "kind" (.text i.kindName), entry "message" (.text i.message)]

end Issue

/-! ## Repetitions -/

namespace RegisterDecl

mutual

/-- The bytes that all repetitions of a declaration cover. -/
def extent : RegisterDecl → UInt64
  | ⟨_, _, _, _, _, count, stride, registers⟩ =>
    let steps := clamp64 ((count.getD 1).toNat - 1)
    addSat (mulSat steps (stride.getD 0)) (if registers.isEmpty then wordBytes else furthestStop registers)

/-- The bytes from the start of a group to the end of its furthest declaration. -/
def furthestStop : List RegisterDecl → UInt64
  | [] => 0
  | r :: rs => max (addSat r.offset (extent r)) (furthestStop rs)

end

/-- The bytes that one repetition of a declaration covers. -/
def size (r : RegisterDecl) : UInt64 := if r.isGroup then furthestStop r.registers else wordBytes

mutual

/-- The repetitions that are too close together, in a declaration and those inside
it. `path` is made of the names around it. -/
def strideIssues (path : String) : RegisterDecl → List Issue
  | ⟨name, offset, access, description, fields, count, stride, registers⟩ =>
    let path := if path = "" then name else path ++ "." ++ name
    let size := (RegisterDecl.mk name offset access description fields count stride registers).size
    let stride := stride.getD 0
    (if 1 < count.getD 1 ∧ stride < size then [.strideTooSmall path stride size] else []) ++
      strideIssuesAll path registers

/-- The repetitions that are too close together, in some declarations. -/
def strideIssuesAll (path : String) : List RegisterDecl → List Issue
  | [] => []
  | r :: rs => strideIssues path r ++ strideIssuesAll path rs

end

end RegisterDecl

/-! ## Fields -/

namespace FlatRegister

/-- The fields that leave the register. -/
def boundsIssues (r : FlatRegister) : List Issue :=
  (r.fields.filter fun f => r.width.toNat < f.stop).map (.fieldOutOfBounds r)

/-- The one of two fields that reaches further, the earlier one if both reach as far. -/
def furtherField (furthest : Option FlatField) (f : FlatField) : FlatField :=
  match furthest with
  | some e => if e.stop < f.stop then f else e
  | none => f

/-- The fields, sorted by offset, that start inside an earlier one. -/
def overlapIssues (r : FlatRegister) (furthest : Option FlatField) : List FlatField → List Issue
  | [] => []
  | f :: fs =>
    let issue :=
      match furthest with
      | some e => if f.offset.toNat < e.stop then [.fieldOverlap r e f] else []
      | none => []
    issue ++ overlapIssues r (some (furtherField furthest f)) fs

/-- The fields of the register by offset. -/
def sortedFields (r : FlatRegister) : List FlatField := r.fields.mergeSort fun a b => a.offset ≤ b.offset

/-- The issues of the fields of the register. -/
def fieldIssues (r : FlatRegister) : List Issue := r.boundsIssues ++ r.overlapIssues none r.sortedFields

/-! ## Registers -/

/-- The one of two registers that reaches further, the earlier one if both reach as
far. -/
def further (furthest : Option FlatRegister) (r : FlatRegister) : FlatRegister :=
  match furthest with
  | some e => if e.stop < r.stop then r else e
  | none => r

/-- The issue of a register with the furthest of those before it. -/
def positionIssue? (furthest : Option FlatRegister) (r : FlatRegister) : Option Issue :=
  match furthest with
  | some e =>
    if e.offset = r.offset then some (.duplicateOffset e r)
    else if r.offset < e.stop then some (.registerOverlap e r)
    else none
  | none => none

/-- The issues of some registers, given by address. -/
def issuesFrom (furthest : Option FlatRegister) : List FlatRegister → List Issue
  | [] => []
  | r :: rs => (positionIssue? furthest r).toList ++ r.fieldIssues ++ issuesFrom (some (further furthest r)) rs

end FlatRegister

/-- The issues of some memory maps and of the registers they stand for. -/
def validate (maps : List MemoryMap) (registers : List FlatRegister) : List Issue :=
  (maps.flatMap fun m => m.addressBlocks.flatMap fun b => RegisterDecl.strideIssuesAll b.name b.registers) ++
    FlatRegister.issuesFrom none registers

end CoreForge
