import CoreForge.Number.Literal
/-!
# Bit spans

The position and width of a field inside a register, and its notation: `[5]`
for one bit, `[7:4]` for a range. Reading takes either order of the bounds, any
gaps, and the range without brackets.
-/

namespace CoreForge

open CoreForge.Text CoreForge.Number

/-- A run of bits inside a register. -/
structure BitSpan where
  offset : UInt32
  width : UInt32
deriving DecidableEq, Repr, Inhabited

namespace BitSpan

/-- The most significant bit; a span without bits counts as one bit. -/
def msb (s : BitSpan) : UInt32 := clamp32 (s.offset.toNat + (max s.width.toNat 1 - 1))

/-- The first bit after the span. -/
def stop (s : BitSpan) : Nat := s.offset.toNat + s.width.toNat

/-- The notation of a span. -/
def render (s : BitSpan) : String :=
  if s.width ≤ 1 then "[" ++ toString s.offset.toNat ++ "]"
  else "[" ++ toString s.msb.toNat ++ ":" ++ toString s.offset.toNat ++ "]"

/-- The span between two bits, in either order. Between 0 and the largest word it has the
width 0, as the positions of that range do not fit a word. -/
def between (a b : UInt64) : BitSpan := ⟨clamp32 (min a.toNat b.toNat), clamp32 (positions a b).toNat⟩

/-- Reads `high:low` or `bit` from the start of a text. -/
def range? (cs : List Char) : Option (BitSpan × List Char) := do
  let (first, rest) ← spacedLiteral? cs
  let second := do
    let rest ← afterStart? [':'] (dropGaps rest)
    spacedLiteral? (dropGaps rest)
  match second with
  | some (n, rest) => some (between first n, rest)
  | none => some (between first first, rest)

/-- Removes a pair of brackets around a text. A text that opens a bracket and
does not close it at its end is refused; one without brackets is kept. -/
def unbracket? : List Char → Option (List Char)
  | '[' :: cs => beforeEnd? [']'] cs
  | cs => some cs

/-- The span that a text denotes, with or without brackets. -/
def ofText? (cs : List Char) : Option BitSpan := do
  let inner ← unbracket? (trim cs)
  match range? inner with
  | some (span, []) => some span
  | _ => none

/-- The span that a string denotes. -/
def ofString? (s : String) : Option BitSpan := ofText? s.toList

end BitSpan

end CoreForge
