/-!
# Double-precision numbers

A finite double is a whole mantissa times a power of two, with a sign. This
module takes a double apart, and finds the double nearest to a quotient of
natural numbers, a quotient halfway between two doubles going to the one with
the even mantissa.
-/

namespace CoreForge.Number

/-- A quotient rounded to the nearest whole number, a half to the even one. -/
def roundHalfEven (num den : Nat) : Nat :=
  let q := num / den
  let r := num % den
  if 2 * r < den then q else if den < 2 * r then q + 1 else if q % 2 = 0 then q else q + 1

/-- The bit of a mantissa that is set but not written in the normal range. -/
def hiddenBit : Nat := 0x10000000000000

/-- The bit for the sign of a double. -/
def signBit : Nat := 0x8000000000000000

/-- A double taken apart. -/
structure Binary64 where
  negative : Bool
  /-- The exponent field: zero below the normal range, 2047 without a finite value. -/
  exponent : Nat
  fraction : Nat
deriving DecidableEq, Repr

namespace Binary64

/-- The parts of a double. -/
def ofFloat (x : Float) : Binary64 :=
  let bits := x.toBits.toNat
  ⟨signBit ≤ bits, bits / hiddenBit % 0x800, bits % hiddenBit⟩

/-- The value is finite. -/
def isFinite (b : Binary64) : Bool := b.exponent ≠ 2047

/-- The whole mantissa. -/
def mantissa (b : Binary64) : Nat := if b.exponent = 0 then b.fraction else hiddenBit + b.fraction

/-- The power of two that the mantissa is scaled by. -/
def power (b : Binary64) : Int := (max b.exponent 1 : Nat) - 1075

/-- The value is zero, of either sign. -/
def isZero (b : Binary64) : Bool := b.mantissa = 0

end Binary64

/-- The magnitude of a finite double as a quotient of natural numbers. -/
def magnitude (mantissa : Nat) (power : Int) : Nat × Nat :=
  if 0 ≤ power then (mantissa <<< power.toNat, 1) else (mantissa, 1 <<< (-power).toNat)

/-- The exponent of the largest power of two that is at most the quotient. -/
def binaryExponent (num den : Nat) : Int :=
  let k : Int := (num.log2 : Int) - den.log2
  let (a, b) := if 0 ≤ k then (num, den <<< k.toNat) else (num <<< (-k).toNat, den)
  if b ≤ a then k else k - 1

/-- The bits of the double nearest to a quotient with a positive denominator. -/
def nearestBits (num den : Nat) : Nat :=
  if num = 0 then 0
  else
    let power := max (binaryExponent num den - 52) (-1074)
    let m :=
      if 0 ≤ power then roundHalfEven num (den <<< power.toNat)
      else roundHalfEven (num <<< (-power).toNat) den
    -- A mantissa rounded up to the next power of two carries into the exponent.
    let bits : Int := if m < hiddenBit then (m : Int) else (power + 1075) * hiddenBit + (m - hiddenBit : Nat)
    min bits.toNat (2047 * hiddenBit)

/-- The double nearest to a quotient, infinite beyond the largest double. -/
def nearest (negative : Bool) (num den : Nat) : Float :=
  Float.ofBits (UInt64.ofNat (nearestBits num den + if negative then signBit else 0))

/-- The double nearest to `digits * 10 ^ exponent`. -/
def nearestDecimal (negative : Bool) (digits : Nat) (exponent : Int) : Float :=
  if 0 ≤ exponent then nearest negative (digits * Nat.pow 10 exponent.toNat) 1
  else nearest negative digits (Nat.pow 10 (-exponent).toNat)

/-- The double is neither infinite nor without a value. -/
def isFinite (x : Float) : Bool := (Binary64.ofFloat x).isFinite

/-- The natural number a double stands for, when it is whole and not negative. -/
def wholeOfFloat? (x : Float) : Option Nat :=
  let b := Binary64.ofFloat x
  if b.isFinite ∧ (¬ b.negative ∨ b.isZero) then
    let (num, den) := magnitude b.mantissa b.power
    if num % den = 0 then some (num / den) else none
  else none

end CoreForge.Number
