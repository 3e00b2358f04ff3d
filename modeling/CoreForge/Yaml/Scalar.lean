import CoreForge.Document.Basic
import CoreForge.Number.Literal
/-!
# Plain scalars

What a plain YAML scalar denotes under the core schema: null, a truth value, a
whole number (decimal, or with `0x`, `0o`, `0b`, with an optional sign), a
floating-point number, or a text. Digits after a leading zero are a text, and so
is anything that only nearly looks like a number.
-/

namespace CoreForge.Yaml

open CoreForge.Text CoreForge.Number

/-- The spellings of null; nothing at all is null too. -/
def isNull (cs : List Char) : Bool :=
  cs = [] || cs = "~".toList || cs = "null".toList || cs = "Null".toList || cs = "NULL".toList

/-- The spellings of the truth values. -/
def bool? (cs : List Char) : Option Bool :=
  if cs = "true".toList ∨ cs = "True".toList ∨ cs = "TRUE".toList then some true
  else if cs = "false".toList ∨ cs = "False".toList ∨ cs = "FALSE".toList then some false
  else none

/-- Several decimal digits of which the first is zero: a text, not a number. -/
def isZeroPadded (cs : List Char) : Bool :=
  match (unsign cs).2 with
  | '0' :: d :: ds => (d :: ds).all Char.isDigit
  | _ => false

/-- The magnitude of a whole number without its sign. A marker without digits
of its base leaves nothing that could be a number. -/
def wholeMagnitude? : List Char → Option Nat
  | '0' :: 'x' :: ds => digits? 16 ds
  | '0' :: 'o' :: ds => digits? 8 ds
  | '0' :: 'b' :: ds => digits? 2 ds
  | ds => digits? 10 ds

/-- A whole number of any size. -/
def whole? (cs : List Char) : Option Int :=
  if isZeroPadded cs then none
  else
    let (negative, ds) := unsign cs
    (wholeMagnitude? ds).map fun n => if negative then -n else n

/-- The exponent part of a number: nothing, or a letter, an optional sign and
digits. -/
def exponentPart? : List Char → Option Int
  | [] => some 0
  | e :: cs =>
    if e = 'e' ∨ e = 'E' then
      let (negative, ds) := unsign cs
      (digits? 10 ds).map fun n => if negative then -n else n
    else none

/-- A decimal number with an optional point and exponent and at least one digit,
as digits and an exponent of ten. -/
def decimal? (cs : List Char) : Option (Nat × Int) :=
  let whole := cs.takeWhile Char.isDigit
  let rest := cs.dropWhile Char.isDigit
  let (fraction, rest) :=
    match rest with
    | '.' :: cs => (cs.takeWhile Char.isDigit, cs.dropWhile Char.isDigit)
    | cs => ([], cs)
  do
    let n ← digits? 10 (whole ++ fraction)
    let e ← exponentPart? rest
    some (n, e - fraction.length)

/-- The double nearest to a decimal. An exponent beyond every double is cut
short, so that no huge power of ten is formed. -/
def floatOfDecimal (negative : Bool) (n : Nat) (e : Int) : Float :=
  let size := (Nat.toDigits 10 n).length
  if n = 0 ∨ e + size < -400 then nearest negative 0 1
  else if 400 < e + size then nearest negative (Nat.pow 10 400) 1
  else nearestDecimal negative n e

/-- A floating-point number. A decimal too large for a double is a text. -/
def float? (cs : List Char) : Option Float :=
  let (negative, body) := unsign cs
  if body = ".inf".toList ∨ body = ".Inf".toList ∨ body = ".INF".toList then
    some (nearest negative (Nat.pow 10 400) 1)
  else if cs = ".nan".toList ∨ cs = ".NaN".toList ∨ cs = ".NAN".toList then some (0.0 / 0.0)
  else if isZeroPadded cs then none
  else
    match decimal? body with
    | some (n, e) =>
      let x := floatOfDecimal negative n e
      if isFinite x then some x else none
    | none => none

/-- What a plain scalar denotes. A whole number beyond 64 bits that fits 128 bits denotes
nothing that a document can hold. -/
def denote? (source : String) : Option Document :=
  let cs := source.toList
  if isNull cs then some .null
  else
    match bool? cs with
    | some b => some (.bool b)
    | none =>
      match whole? cs with
      | some n =>
        if -(maxSigned64 + 1) ≤ n ∧ n ≤ max64 then some (.int n)
        else if -(1 <<< 127 : Nat) ≤ n ∧ n < (1 <<< 128 : Nat) then none
        else some (textOrFloat cs)
      | none => some (textOrFloat cs)
where
  textOrFloat (cs : List Char) : Document :=
    match float? cs with
    | some x => .float x
    | none => .text source

end CoreForge.Yaml
