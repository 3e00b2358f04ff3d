import CoreForge.Document.Record
import CoreForge.Number.Literal
import CoreForge.Number.Binary64
/-!
# Lenient numbers

Numbers in descriptions may be written natively or as texts, and most fields that
hold one take any value at all: what is worth no number counts as 0, or as absent
where the field is optional.
-/

namespace CoreForge

open CoreForge.Number

namespace Document

/-- A scalar other than null. -/
def isScalar : Document → Bool
  | .bool _ | .int _ | .float _ | .text _ => true
  | _ => false

/-- The number a scalar is worth: a whole number that is not negative, a text that
spells one, or a truth value. -/
def number? : Document → Option UInt64
  | .int n => if 0 ≤ n then some (clamp64 n.toNat) else none
  | .float x => (wholeOfFloat? x).map clamp64
  | .text s => ofString? s
  | .bool b => some (if b then 1 else 0)
  | _ => none

/-- The number a document is worth, or 0. -/
def number (d : Document) : UInt64 := d.number?.getD 0

/-- The 32-bit number a document is worth: one that does not fit is the largest. -/
def number32 (d : Document) : UInt32 := clamp32 d.number.toNat

/-- The text a scalar is worth in a bit range: a whole number in decimal, or a text as
it is. -/
def rangeText? : Document → Option String
  | .int n => some (toString n)
  | .text s => some s
  | _ => none

/-- The text of a bit range that a document is worth: of a scalar, or of the only
element of a list of scalars, which is put in brackets again. -/
def bitsText? : Document → Option String
  | .list [d] => d.rangeText?.map fun s => "[" ++ s ++ "]"
  | d => d.rangeText?

/-- Reads a width in a table of widths: a scalar; one that does not fit is 0. -/
def readTableWidth (d : Document) : Option UInt32 :=
  if d.isScalar then some ((d.number?.bind fun n => fit32? n.toNat).getD 0) else none

end Document

end CoreForge
