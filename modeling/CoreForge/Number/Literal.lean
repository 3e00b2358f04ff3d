import CoreForge.Text.Ascii
import CoreForge.Text.Blank
import CoreForge.Number.Saturate
/-!
# Number literals

The spellings of unsigned numbers in descriptions and declarations: decimal
digits, `0x`, `0b` and `0o` with digits of that base, and an optional size
followed by `'h`, `'b`, `'o` or `'d` and digits. Marker letters may be in either
case. The spellings are tried in a fixed order, and one that holds a digit
outside its base or a value of more than 64 bits gives way to the next.
-/

namespace CoreForge.Number

open CoreForge.Text

/-- The value of a hexadecimal digit. -/
def digitValue? (c : Char) : Option Nat :=
  if c.isDigit then some (c.toNat - '0'.toNat)
  else if 'a' ≤ c ∧ c ≤ 'f' then some (c.toNat - 'a'.toNat + 10)
  else if 'A' ≤ c ∧ c ≤ 'F' then some (c.toNat - 'A'.toNat + 10)
  else none

/-- A hexadecimal digit, in either case. -/
def isHexDigit (c : Char) : Bool := (digitValue? c).isSome

/-- An octal digit. -/
def isOctDigit (c : Char) : Bool := '0' ≤ c && c ≤ '7'

/-- A binary digit. -/
def isBinDigit (c : Char) : Bool := c = '0' || c = '1'

/-- The number that digits of a base denote, after those read already. -/
def digitsValueFrom (base : Nat) : Nat → List Char → Option Nat
  | n, [] => some n
  | n, c :: cs =>
    match digitValue? c with
    | some d => if d < base then digitsValueFrom base (n * base + d) cs else none
    | none => none

/-- The number that a non-empty run of digits denotes. -/
def digits? (base : Nat) (ds : List Char) : Option Nat :=
  if ds = [] then none else digitsValueFrom base 0 ds

/-- The word that a non-empty run of digits denotes. -/
def digitsWord? (base : Nat) (ds : List Char) : Option UInt64 := (digits? base ds).bind fit64?

/-- A leading minus sign, and the text without a leading sign. -/
def unsign : List Char → Bool × List Char
  | '-' :: cs => (true, cs)
  | '+' :: cs => (false, cs)
  | cs => (false, cs)

/-- One way to spell a number. -/
structure Spelling where
  /-- A size in decimal digits may come before the marker. -/
  sized : Bool
  /-- The marker before the digits, in lower case. -/
  marker : List Char
  /-- The characters taken as digits. -/
  isDigit : Char → Bool
  base : Nat

/-- The spellings, in the order in which they are tried. -/
def spellings : List Spelling :=
  [ ⟨false, ['0', 'x'], isHexDigit, 16⟩,
    ⟨false, ['0', 'b'], isBinDigit, 2⟩,
    ⟨false, ['0', 'o'], isOctDigit, 8⟩,
    ⟨true, ['\x27', 'h'], isHexDigit, 16⟩,
    ⟨true, ['\x27', 'b'], Char.isDigit, 2⟩,
    ⟨true, ['\x27', 'o'], Char.isDigit, 8⟩,
    ⟨true, ['\x27', 'd'], Char.isDigit, 10⟩,
    ⟨false, [], Char.isDigit, 10⟩ ]

/-- Reads a number in one spelling from the start of a text. -/
def Spelling.read? (s : Spelling) (cs : List Char) : Option (UInt64 × List Char) := do
  let cs := if s.sized then cs.dropWhile Char.isDigit else cs
  let digits ← afterWord? s.marker cs
  let n ← digitsWord? s.base (digits.takeWhile s.isDigit)
  some (n, digits.dropWhile s.isDigit)

/-- Reads a number from the start of a text, in the first spelling that fits. -/
def literal? (cs : List Char) : Option (UInt64 × List Char) := spellings.findSome? (·.read? cs)

/-- Reads a number with any gaps around it from the start of a text. -/
def spacedLiteral? (cs : List Char) : Option (UInt64 × List Char) :=
  (literal? (dropGaps cs)).map fun (n, rest) => (n, dropGaps rest)

/-- The number a whole text denotes. Underscores separate digits and are
skipped anywhere. -/
def ofText? (cs : List Char) : Option UInt64 :=
  match spacedLiteral? (cs.filter (· ≠ '_')) with
  | some (n, []) => some n
  | _ => none

/-- The number a whole string denotes. -/
def ofString? (s : String) : Option UInt64 := ofText? s.toList

/-- The value of a run of decimal digits, at least one, that fits 64 bits. -/
def plainWord? (ds : List Char) : Option UInt64 :=
  if ds.all Char.isDigit then digitsWord? 10 ds else none

end CoreForge.Number
