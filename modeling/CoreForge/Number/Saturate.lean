/-!
# Numbers with a ceiling

Addresses, sizes and counts are 64-bit words, bit positions 32-bit words.
Arithmetic on addresses does not wrap: a result that does not fit is the largest
word. Two sums have no ceiling, the next number for a name and the positions of a
range, and they wrap. The lemmas say what each operation does to the number a word
stands for.
-/

namespace CoreForge.Number

/-- The largest 64-bit word. -/
def max64 : Nat := 0xFFFFFFFFFFFFFFFF

/-- The largest 32-bit word. -/
def max32 : Nat := 0xFFFFFFFF

/-- The largest signed 64-bit number. -/
def maxSigned64 : Nat := 0x7FFFFFFFFFFFFFFF

/-- The 64-bit word for a number, the largest word when it does not fit. -/
def clamp64 (n : Nat) : UInt64 := UInt64.ofNatClamp n

/-- The 32-bit word for a number, the largest word when it does not fit. -/
def clamp32 (n : Nat) : UInt32 := UInt32.ofNatClamp n

/-- The 64-bit word for a number that fits. -/
def fit64? (n : Nat) : Option UInt64 := if n ≤ max64 then some (clamp64 n) else none

/-- The 32-bit word for a number that fits. -/
def fit32? (n : Nat) : Option UInt32 := if n ≤ max32 then some (clamp32 n) else none

/-- The sum of two words, at most the largest word. -/
def addSat (a b : UInt64) : UInt64 := clamp64 (a.toNat + b.toNat)

/-- The product of two words, at most the largest word. -/
def mulSat (a b : UInt64) : UInt64 := clamp64 (a.toNat * b.toNat)

/-- The 64-bit word for a number, counted from 0 again behind the largest word. A sum
that wraps is one that overflow checks, where they are compiled in, would stop at. -/
def wrap64 (n : Nat) : UInt64 := UInt64.ofNat n

/-- How many positions there are from one word to another, with both of them. Between 0
and the largest word there is one more than a word can count. -/
def positions (a b : UInt64) : UInt64 := wrap64 (max a.toNat b.toNat - min a.toNat b.toNat + 1)

/-- The difference of two words, when it is not negative. -/
def sub? (a b : UInt64) : Option UInt64 := if b ≤ a then some (a - b) else none

theorem toNat_clamp64 (n : Nat) : (clamp64 n).toNat = min n max64 := by
  rcases Nat.lt_or_ge n UInt64.size with h | h
  · have h' : n < 18446744073709551616 := h
    simp only [clamp64, UInt64.toNat_ofNatClamp_of_lt h, max64]
    omega
  · have h' : 18446744073709551616 ≤ n := h
    simp only [clamp64, UInt64.toNat_ofNatClamp_of_le h, max64, UInt64.size]
    omega

theorem toNat_clamp32 (n : Nat) : (clamp32 n).toNat = min n max32 := by
  rcases Nat.lt_or_ge n UInt32.size with h | h
  · have h' : n < 4294967296 := h
    simp only [clamp32, UInt32.toNat_ofNatClamp_of_lt h, max32]
    omega
  · have h' : 4294967296 ≤ n := h
    simp only [clamp32, UInt32.toNat_ofNatClamp_of_le h, max32, UInt32.size]
    omega

theorem toNat_addSat (a b : UInt64) : (addSat a b).toNat = min (a.toNat + b.toNat) max64 :=
  toNat_clamp64 _

theorem toNat_mulSat (a b : UInt64) : (mulSat a b).toNat = min (a.toNat * b.toNat) max64 :=
  toNat_clamp64 _

theorem toNat_wrap64 (n : Nat) : (wrap64 n).toNat = n % (max64 + 1) := UInt64.toNat_ofNat'

theorem toNat_positions (a b : UInt64) :
    (positions a b).toNat =
      if a.toNat = 0 ∧ b.toNat = max64 ∨ a.toNat = max64 ∧ b.toNat = 0 then 0
      else max a.toNat b.toNat - min a.toNat b.toNat + 1 := by
  have ha := a.toNat_lt
  have hb := b.toNat_lt
  rw [positions, toNat_wrap64, max64]
  split <;> omega

theorem positions_comm (a b : UInt64) : positions a b = positions b a := by
  rw [positions, positions, Nat.max_comm, Nat.min_comm]

/-- The hexadecimal spelling of a word, without leading zeros. -/
def hex (n : UInt64) : String := String.ofList (Nat.toDigits 16 n.toNat)

end CoreForge.Number
