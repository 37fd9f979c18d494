/-!
# Words of a fixed width

Integers of the machine are kept as natural numbers below `2 ^ bits` and read back either as they
stand or as two's complement.  No word is wider than 128 bits.
-/

namespace UnitCompiler

attribute [local instance (high)] instPowNat

namespace Word

/-- The widest word there is. -/
def maxBits : Nat := 128

/-- The number of values of a word of `bits` bits. -/
def modulus (bits : Nat) : Nat := 2 ^ min bits maxBits

/-- The low `bits` bits of a word. -/
def mask (bits value : Nat) : Nat := value % modulus bits

/-- The word whose two's complement reading is `value`, up to multiples of the modulus. -/
def ofInt (bits : Nat) (value : Int) : Nat := (value % (modulus bits : Int)).toNat

/-- The two's complement reading of the low `bits` bits; a word of no bits is read at full width. -/
def toInt (bits value : Nat) : Int :=
  Int.bmod value (if bits = 0 then 2 ^ maxBits else modulus bits)

/-- The integer in the range of signed 128-bit words that is congruent to `value`. -/
def wrapFull (value : Int) : Int := Int.bmod value (2 ^ maxBits)

/-- All bits inverted. -/
def complement (bits value : Nat) : Nat := ofInt bits (-1 - (value : Int))

theorem modulus_pos (bits : Nat) : 0 < modulus bits := Nat.two_pow_pos _

theorem mask_lt (bits value : Nat) : mask bits value < modulus bits :=
  Nat.mod_lt _ (modulus_pos bits)

theorem ofInt_lt (bits : Nat) (value : Int) : ofInt bits value < modulus bits := by
  have h : (0 : Int) < (modulus bits : Int) := by exact_mod_cast modulus_pos bits
  have hlt := Int.emod_lt_of_pos value h
  have hnn := Int.emod_nonneg value (Int.ne_of_gt h)
  unfold ofInt
  omega

theorem mask_of_lt {bits value : Nat} (h : value < modulus bits) : mask bits value = value :=
  Nat.mod_eq_of_lt h

end Word

/-- The largest unsigned 64-bit integer; sizes and offsets live below it. -/
def maxU64 : Nat := 2 ^ (64 : Nat) - 1

/-- An integer reduced to an unsigned 64-bit one. -/
def toU64 (value : Int) : Nat := (value % (2 ^ (64 : Nat) : Int)).toNat

/-- A product that stays at the largest 64-bit integer once it would pass it. -/
def saturatingMul (a b : Nat) : Nat := min (a * b) maxU64

/-- A sum that stays at the largest 64-bit integer once it would pass it. -/
def saturatingAdd (a b : Nat) : Nat := min (a + b) maxU64

/-- The number itself when it fits in 64 bits. -/
def checkU64 (value : Nat) : Option Nat := if value ≤ maxU64 then some value else none

end UnitCompiler
