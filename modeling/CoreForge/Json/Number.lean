import CoreForge.Number.Literal
import CoreForge.Number.Binary64
import CoreForge.Document.Basic
import CoreForge.Json.Text
/-!
# JSON numbers

A number is a sign, digits, a fraction and an exponent. A whole number that fits
64 bits is kept exactly; any other number becomes a double.

The double is formed from as many leading digits as fit 64 bits, scaled by a
power of ten in double arithmetic. This is fast and exact for the numbers people
write, and may miss the nearest double by a few units for long ones.
-/

namespace CoreForge.Json

open CoreForge.Number

/-- The digits of a number taken so far: those that fit 64 bits, and how many
are left over. -/
structure Digits where
  value : Nat
  leftOver : List Char

/-- Appends digits to a value while it fits 64 bits. -/
def Digits.take (value : Nat) : List Char → Digits
  | [] => ⟨value, []⟩
  | c :: cs =>
    let next := value * 10 + (c.toNat - '0'.toNat)
    if next ≤ max64 then take next cs else ⟨value, c :: cs⟩

/-- A power of ten as a double. -/
def powerOfTen (n : Nat) : Float := nearest false (Nat.pow 10 n) 1

/-- Divides by `10 ^ 308` until the rest of a negative exponent is in range. -/
def scaleDown : Nat → Float → Nat → Float
  | 0, x, _ => x
  | fuel + 1, x, e => if e ≤ 308 then x / powerOfTen e else scaleDown fuel (x / powerOfTen 308) (e - 308)

/-- A value scaled by a power of ten; none beyond the largest double. A value
that has become zero stays zero, whatever is left of the exponent. -/
def scaled? (value : Nat) (exponent : Int) : Option Float :=
  let x := nearest false value 1
  if exponent < 0 then some (scaleDown 4 x (min (-exponent).toNat 1232))
  else if 308 < exponent then if value = 0 then some 0 else none
  else
    let y := x * powerOfTen exponent.toNat
    if isFinite y then some y else none

/-- The parts of a number. -/
structure Parts where
  negative : Bool
  whole : List Char
  fraction : List Char
  /-- The sign and the digits of the exponent. -/
  exponent : Option (Bool × List Char)

namespace Parts

/-- A number without a fraction and an exponent. -/
def isWhole (p : Parts) : Bool := p.fraction.isEmpty && p.exponent.isNone

/-- The digits of the whole part that fit 64 bits. -/
def wholeDigits (p : Parts) : Digits := Digits.take 0 p.whole

/-- The digits of the whole part and of the fraction that fit 64 bits. -/
def allDigits (p : Parts) : Digits := Digits.take p.wholeDigits.value p.fraction

/-- The number as a double; none beyond the largest double. -/
def float? (p : Parts) : Option Float :=
  let places := p.fraction.length - p.allDigits.leftOver.length
  let shift : Int := p.wholeDigits.leftOver.length - (places : Int)
  let exponent : Int :=
    match p.exponent with
    | none => 0
    | some (negative, ds) =>
      -- Beyond nine digits every exponent is out of range.
      let n := (digitsValueFrom 10 0 (ds.dropWhile (· = '0') |>.take 10)).getD 0
      if negative then -n else n
  (scaled? p.allDigits.value (shift + exponent)).map fun x => if p.negative then -x else x

/-- The document for a number; none beyond the largest double. Negative zero is a
double. -/
def document? (p : Parts) : Option Document :=
  let float := p.float?.map Document.float
  if p.isWhole then
    match p.wholeDigits with
    | ⟨n, []⟩ =>
      if ¬ p.negative then some (.int n)
      else if n = 0 then float
      else if n ≤ maxSigned64 + 1 then some (.int (-n))
      else float
    | _ => float
  else float

end Parts

/-! ## Reading -/

/-- The digits after the one with which a number no longer fits 31 bits. -/
def overrun? (value : Nat) : List Char → Option (List Char)
  | [] => none
  | c :: cs =>
    let value := value * 10 + (c.toNat - '0'.toNat)
    if value < 0x80000000 then overrun? value cs else some cs

/-- A digit comes next. -/
def atDigit (cs : List Char) : Bool := (cs.head?.map Char.isDigit).getD false

/-- Reads the exponent behind the parts before it. Reading stops at once where a positive
exponent runs beyond 31 bits. -/
def readExponent (p : Parts) : List Char → Attempt Parts
  | [] => .ok (p, [])
  | e :: cs =>
    if e = 'e' ∨ e = 'E' then
      let (negative, cs) :=
        match cs with
        | '-' :: cs => (true, cs)
        | '+' :: cs => (false, cs)
        | cs => (false, cs)
      if atDigit cs then
        let digits := cs.takeWhile Char.isDigit
        let rest := cs.dropWhile Char.isDigit
        match overrun? 0 digits with
        | some left =>
          if negative ∨ p.allDigits.value = 0 then .ok ({ p with exponent := some (negative, digits) }, rest)
          else .error (left ++ rest)
        | none => .ok ({ p with exponent := some (negative, digits) }, rest)
      else .error (dropByte cs)
    else .ok (p, e :: cs)

/-- Reads a fraction and an exponent behind the digits of a number. A point needs digits
behind it. -/
def readFraction (p : Parts) : List Char → Attempt Parts
  | '.' :: cs =>
    if atDigit cs then
      readExponent { p with fraction := cs.takeWhile Char.isDigit } (cs.dropWhile Char.isDigit)
    else .error cs
  | cs => readExponent p cs

/-- Reads the digits of a number and what follows them. Zero is the only number whose
digits start with zero. -/
def readWhole (negative : Bool) : List Char → Attempt Parts
  | '0' :: cs => if atDigit cs then .error cs else readFraction ⟨negative, ['0'], [], none⟩ cs
  | cs =>
    if atDigit cs then
      readFraction ⟨negative, cs.takeWhile Char.isDigit, [], none⟩ (cs.dropWhile Char.isDigit)
    else .error (dropByte cs)

/-- Reads a number. -/
def number (cs : List Char) : Attempt Document :=
  let parts :=
    match cs with
    | '-' :: cs => readWhole true cs
    | cs => readWhole false cs
  match parts with
  | .error rest => .error rest
  | .ok (p, rest) =>
    match p.document? with
    | some d => .ok (d, rest)
    | none => .error rest

end CoreForge.Json
