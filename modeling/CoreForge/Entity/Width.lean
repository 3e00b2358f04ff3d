import CoreForge.Entity.Clause
import CoreForge.Number.Literal
import CoreForge.Value.PortWidth
/-!
# Widths of declared ports

The width of a port is read off its type. A type without a group is one bit. A
group with a range of two numbers has a fixed width, and one from `G - 1` to 0 has
the width that the generic `G` gives. The width of any other type is not resolved;
its text is kept.
-/

namespace CoreForge.Entity

open CoreForge.Text CoreForge.Number

/-- The width of a port as its type says it. -/
inductive WidthExpr
  | scalar
  | fixed (bits : UInt32)
  | generic (name : String)
  | unresolved (type : String)
deriving DecidableEq, Repr, Inhabited

namespace WidthExpr

/-- The number of bits, when it is known. -/
def bits? : WidthExpr → Option UInt32
  | .scalar => some 1
  | .fixed w => some w
  | .generic _ | .unresolved _ => none

/-- The width as a description says it. -/
def toPortWidth : WidthExpr → PortWidth
  | .scalar => .fixed 1
  | .fixed w => .fixed w
  | .generic name => .symbolic name
  | .unresolved type => .symbolic type

/-- The width as text. -/
def render (w : WidthExpr) : String := w.toPortWidth.render

end WidthExpr

/-- The name in `name - 1`. -/
def genericMinusOne? (cs : List Char) : Option (List Char) := do
  let (name, cs) ← identifier? (dropGaps cs)
  let cs ← afterStart? ['-'] (dropGaps cs)
  let cs ← afterStart? ['1'] (dropGaps cs)
  if dropGaps cs = [] then some name else none

/-- A range: its left and right bound, and whether it is written downward. -/
def bounds? (range : List Char) : Option (List Char × List Char × Bool) :=
  match findWord? "downto".toList none range with
  | some (left, right) => some (trim left, trim right, true)
  | none => (findWord? "to".toList none range).map fun (left, right) => (trim left, trim right, false)

/-- The width of a range. One from 0 to the largest word has more positions than a word counts,
and the width 0. -/
def rangeWidth? (range : List Char) : Option WidthExpr := do
  let (left, right, down) ← bounds? range
  match ofText? left, ofText? right with
  | some l, some r => (fit32? (positions l r).toNat).map .fixed
  | _, _ =>
    let (bound, zero) := if down then (left, right) else (right, left)
    if ofText? zero = some 0 then (genericMinusOne? bound).map fun name => .generic (String.ofList name)
    else none

/-- The width that a type says. -/
def inferWidth (type : List Char) : WidthExpr :=
  if type.contains '(' then
    match group? (type.dropWhile (· ≠ '(')) with
    | some (range, rest) =>
      if trim rest = [] then (rangeWidth? range).getD (.unresolved (String.ofList type))
      else .unresolved (String.ofList type)
    | none => .unresolved (String.ofList type)
  else .scalar

end CoreForge.Entity
