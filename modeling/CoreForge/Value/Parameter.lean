import CoreForge.Value.Lenient
import CoreForge.Number.Shortest
/-!
# Parameter values

The value of a parameter keeps the type it was written with: a truth value, a
whole number of 64 bits, a floating-point number, or a text.
-/

namespace CoreForge

open CoreForge.Number CoreForge.Text

/-- The value of a parameter. -/
inductive ParameterValue
  | bool (b : Bool)
  | int (n : Int64)
  | float (x : Float)
  | text (s : String)
deriving BEq, Repr

namespace ParameterValue

instance : Inhabited ParameterValue := ⟨.text ""⟩

/-- Reads a value. A whole number beyond the signed range becomes a floating-point
number. -/
def decode : Document → Option ParameterValue
  | .bool b => some (.bool b)
  | .int n =>
    if n ≤ maxSigned64 then some (.int (Int64.ofInt n)) else some (.float (nearest false n.toNat 1))
  | .float x => some (.float x)
  | .text s => some (.text s)
  | _ => none

/-- Writes a value. -/
def encode : ParameterValue → Document
  | .bool b => .bool b
  | .int n => .int n.toInt
  | .float x => .float x
  | .text s => .text s

/-- The whole signed number that a text spells in decimal, when it fits 64 bits. -/
def signedWord? (cs : List Char) : Option Int64 :=
  let (negative, ds) := unsign cs
  if ds.all Char.isDigit then
    match digits? 10 ds with
    | some n =>
      let i : Int := if negative then -n else n
      if -(maxSigned64 + 1) ≤ i ∧ i ≤ maxSigned64 then some (Int64.ofInt i) else none
    | none => none
  else none

/-- The value that a declaration text stands for: a whole number, a truth value
in any case, or a text without the quotes around it. -/
def ofDeclaration (s : String) : ParameterValue :=
  let cs := trim s.toList
  match signedWord? cs with
  | some n => .int n
  | none =>
    let l := cs.map Char.toLower
    if l = "true".toList then .bool true
    else if l = "false".toList then .bool false
    else .text (String.ofList (dropTrailing (· = '\x22') (cs.dropWhile (· = '\x22'))))

/-- The value as a number: a whole number that is not negative, a text that
spells one, or a truth value. -/
def number? : ParameterValue → Option UInt64
  | .int n => if 0 ≤ n.toInt then some (clamp64 n.toInt.toNat) else none
  | .text s => ofString? s
  | .bool b => some (if b then 1 else 0)
  | .float _ => none

/-- The value as text. -/
def render : ParameterValue → String
  | .bool b => if b then "true" else "false"
  | .int n => toString n.toInt
  | .float x => positionalText x
  | .text s => s

end ParameterValue

end CoreForge
