import CoreForge.Number.Binary64
/-!
# Shortest decimals

The decimal of fewest digits that reads back as a given double; among those, the
one nearest to it. Reading rounds to the nearest double, so the decimals that
read back are those between the midpoints to the neighbouring doubles, the
midpoints included when the mantissa is even.

Two notations write such a decimal: the *positional* one, never with an
exponent, and the *document* one, which keeps a decimal point and turns to an
exponent for very large and very small numbers.
-/

namespace CoreForge.Number

/-- A decimal: `digits * 10 ^ exponent`. -/
structure Decimal where
  digits : Nat
  exponent : Int
deriving DecidableEq, Repr

/-- Where the nearer of two neighbours goes when both are equally near. -/
inductive Tie
  | up
  | even
deriving DecidableEq, Repr

/-- The larger exponent of ten `e` with `10 ^ e` at most the quotient, found from
an upper estimate. -/
def decimalExponentFrom (num den : Nat) : Nat → Int → Int
  | 0, e => e
  | fuel + 1, e =>
    let (a, b) := if 0 ≤ e then (num, den * Nat.pow 10 e.toNat) else (num * Nat.pow 10 (-e).toNat, den)
    if b ≤ a then e else decimalExponentFrom num den fuel (e - 1)

/-- The exponent of the largest power of ten that is at most the quotient. -/
def decimalExponent (num den : Nat) : Int :=
  -- A power of two between 2^e and 2^(e+1) lies below 10^(e*30103/100000 + 1).
  let estimate := (binaryExponent num den + 1) * 30103 / 100000 + 1
  decimalExponentFrom num den 3 estimate

/-- The range of quotients that read back as `m * 2 ^ power`, with the bounds
and the value scaled by a common factor: lower bound, value, upper bound, and
the scale. -/
structure ReadRange where
  low : Nat
  value : Nat
  high : Nat
  scale : Nat
  inclusive : Bool

/-- The range of quotients that read back as a double with this mantissa. -/
def ReadRange.of (m : Nat) (power : Int) : ReadRange :=
  let (num, den) := magnitude (4 * m) power
  let (unit, _) := magnitude 1 power
  -- Just above a power of two the lower neighbour is only half a step away.
  let below := if m = hiddenBit ∧ -1074 < power then unit else 2 * unit
  ⟨num - below, num, num + 2 * unit, 4 * den, m % 2 = 0⟩

/-- The decimal `digits * 10 ^ exponent` lies in the range. -/
def ReadRange.contains (r : ReadRange) (digits : Nat) (exponent : Int) : Bool :=
  let (a, s) :=
    if 0 ≤ exponent then (digits * Nat.pow 10 exponent.toNat * r.scale, 1)
    else (digits * r.scale, Nat.pow 10 (-exponent).toNat)
  if r.inclusive then r.low * s ≤ a && a ≤ r.high * s else r.low * s < a && a < r.high * s

/-- The decimal on the grid of a power of ten that reads back, when there is
one: the nearer of the two neighbours of the value. -/
def ReadRange.onGrid? (r : ReadRange) (tie : Tie) (exponent : Int) : Option Decimal :=
  let (num, den) :=
    if 0 ≤ exponent then (r.value, r.scale * Nat.pow 10 exponent.toNat)
    else (r.value * Nat.pow 10 (-exponent).toNat, r.scale)
  let down := num / den
  let rest := num % den
  let lowOk := r.contains down exponent
  let highOk := r.contains (down + 1) exponent
  let goesUp :=
    den < 2 * rest || (den = 2 * rest && (tie = .up || down % 2 = 1))
  if rest = 0 then some ⟨down, exponent⟩
  else
    match lowOk, highOk with
    | true, true => some ⟨if goesUp then down + 1 else down, exponent⟩
    | true, false => some ⟨down, exponent⟩
    | false, true => some ⟨down + 1, exponent⟩
    | false, false => none

/-- The first grid, from coarse to fine, on which a decimal reads back. -/
def ReadRange.firstOnGrid (r : ReadRange) (tie : Tie) : Nat → Int → Decimal
  | 0, e => ⟨r.value / r.scale, e⟩
  | fuel + 1, e => (r.onGrid? tie e).getD (r.firstOnGrid tie fuel (e - 1))

/-- The shortest decimal of a positive double, given by mantissa and power. -/
def shortest (tie : Tie) (m : Nat) (power : Int) : Decimal :=
  let (num, den) := magnitude m power
  let d := (ReadRange.of m power).firstOnGrid tie 18 (decimalExponent num den)
  -- A neighbour rounded up to a power of ten is written with one digit.
  if d.digits = 10 then ⟨1, d.exponent + 1⟩ else d

/-! ## Notations -/

/-- A run of zeros. -/
def zeros (n : Nat) : String := String.ofList (List.replicate n '0')

/-- A decimal with a point inside or in front of its digits. -/
def Decimal.withPoint (d : Decimal) : String :=
  let s := toString d.digits
  let places := (-d.exponent).toNat
  if places < s.length then
    String.ofList (s.toList.take (s.length - places)) ++ "." ++ String.ofList (s.toList.drop (s.length - places))
  else "0." ++ zeros (places - s.length) ++ s

/-- A decimal without an exponent and without a point after a whole number. -/
def Decimal.positional (d : Decimal) : String :=
  if 0 ≤ d.exponent then toString d.digits ++ zeros d.exponent.toNat else d.withPoint

/-- A decimal with an exponent, one digit before the point. `plus` is what stands before
a positive exponent. -/
def Decimal.scientific (plus : String) (d : Decimal) : String :=
  let s := toString d.digits
  let e := d.exponent + s.length - 1
  let power := "e" ++ (if 0 < e then plus else "") ++ toString e
  match s.toList with
  | [] => "0"
  | [c] => String.ofList [c] ++ power
  | c :: cs => String.ofList (c :: '.' :: cs) ++ power

/-- A decimal with a point, or with an exponent when its point would stand more
than sixteen places after its first digit or more than four before it. -/
def Decimal.document (plus : String) (d : Decimal) : String :=
  let point := d.exponent + (toString d.digits).length
  if 0 ≤ d.exponent ∧ point ≤ 16 then d.positional ++ ".0"
  else if -5 < point ∧ point ≤ 16 then d.withPoint
  else d.scientific plus

/-- The sign in front of a number. -/
def signText (negative : Bool) : String := if negative then "-" else ""

/-- A double in positional notation. -/
def positionalText (x : Float) : String :=
  let b := Binary64.ofFloat x
  if ¬ b.isFinite then
    if b.fraction = 0 then signText b.negative ++ "inf" else "NaN"
  else if b.isZero then signText b.negative ++ "0"
  else signText b.negative ++ (shortest .up b.mantissa b.power).positional

/-- A finite double in document notation. -/
def documentText (plus : String) (x : Float) : String :=
  let b := Binary64.ofFloat x
  if b.isZero then signText b.negative ++ "0.0"
  else signText b.negative ++ (shortest .even b.mantissa b.power).document plus

end CoreForge.Number
