import CoreForge.Value.Parameter
/-!
# Port widths

The width of a port is a constant or the name of a parameter. A text that spells
a number is a constant; any other text, without the white space around it, is a
name, which is looked up among the parameters without regard to case.
-/

namespace CoreForge

open CoreForge.Number CoreForge.Text

/-- The width of a port. -/
inductive PortWidth
  | fixed (bits : UInt32)
  | symbolic (name : String)
deriving DecidableEq, Repr

namespace PortWidth

instance : Inhabited PortWidth := ⟨.fixed 1⟩

/-- The width a text stands for. -/
def ofString (s : String) : PortWidth :=
  match ofString? s with
  | some n => .fixed (clamp32 n.toNat)
  | none => .symbolic (trimText s)

/-- Reads a width. A number that is no width is 1, as is null. -/
def decode : Document → Option PortWidth
  | .null => some (.fixed 1)
  | .text s => some (ofString s)
  | d => if d.isScalar then some (.fixed ((d.number?.bind fun n => fit32? n.toNat).getD 1)) else none

/-- Writes a width. -/
def encode : PortWidth → Document
  | .fixed w => .int w.toNat
  | .symbolic name => .text name

/-- The width as text. -/
def render : PortWidth → String
  | .fixed w => toString w.toNat
  | .symbolic name => name

/-- The width in bits. A name is worth the value of the first parameter of that
name, when this is a number that fits. -/
def resolve? (params : List (String × ParameterValue)) : PortWidth → Option UInt32
  | .fixed w => some w
  | .symbolic name =>
    match params.find? (fun p => sameIgnoringCase p.1 name) with
    | some (_, v) => v.number?.bind fun n => fit32? n.toNat
    | none => none

end PortWidth

end CoreForge
