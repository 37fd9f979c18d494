import Mathlib.Tactic.Ring
import UnitCompiler.Number.Word
import UnitCompiler.Types.Scalar

/-!
# Two's complement

The word of an integer depends on the integer only up to multiples of the modulus, so that sums,
differences and products of words are the words of sums, differences and products.  A kind of numbers
reads a word back as the one integer of its range, its `reduce`.
-/

namespace UnitCompiler
namespace Word

theorem modulus_of_le {bits : Nat} (h : bits ≤ maxBits) : modulus bits = 2 ^ bits := by
  rw [modulus, Nat.min_eq_left h]

theorem coe_ofInt (bits : Nat) (v : Int) : (ofInt bits v : Int) = v % (modulus bits : Int) := by
  have hpos : (0 : Int) < (modulus bits : Int) := by exact_mod_cast modulus_pos bits
  rw [ofInt, Int.toNat_of_nonneg (Int.emod_nonneg v (Int.ne_of_gt hpos))]

theorem ofInt_eq_ofInt_iff {bits : Nat} {v w : Int} :
    ofInt bits v = ofInt bits w ↔ v % (modulus bits : Int) = w % (modulus bits : Int) := by
  rw [← coe_ofInt, ← coe_ofInt]
  exact Int.ofNat_inj.symm

/-- A word is the word of any integer congruent to it. -/
theorem eq_ofInt_of_emod_eq {bits n : Nat} {v : Int} (hn : n < modulus bits)
    (h : (n : Int) % (modulus bits : Int) = v % (modulus bits : Int)) : n = ofInt bits v := by
  have hcoe : (n : Int) = (ofInt bits v : Int) := by
    rw [coe_ofInt, ← h, Int.emod_eq_of_lt (Int.natCast_nonneg n) (by exact_mod_cast hn)]
  exact Int.ofNat_inj.mp hcoe

@[simp] theorem mask_eq_ofInt (bits n : Nat) : mask bits n = ofInt bits (n : Int) := by
  refine eq_ofInt_of_emod_eq (mask_lt bits n) ?_
  rw [mask, Int.natCast_emod, Int.emod_emod_of_dvd _ (dvd_refl _)]

@[simp] theorem ofInt_coe_ofInt (bits : Nat) (v : Int) :
    ofInt bits (ofInt bits v : Int) = ofInt bits v := by
  rw [ofInt_eq_ofInt_iff, coe_ofInt, Int.emod_emod_of_dvd _ (dvd_refl _)]

theorem ofInt_bmod (bits : Nat) (v : Int) :
    ofInt bits (Int.bmod v (modulus bits)) = ofInt bits v := by
  rw [ofInt_eq_ofInt_iff, Int.bmod_emod]

theorem ofInt_coe_add (bits : Nat) (v w : Int) :
    ofInt bits ((ofInt bits v : Int) + (ofInt bits w : Int)) = ofInt bits (v + w) := by
  rw [ofInt_eq_ofInt_iff, coe_ofInt, coe_ofInt, ← Int.add_emod]

theorem ofInt_coe_sub (bits : Nat) (v w : Int) :
    ofInt bits ((ofInt bits v : Int) - (ofInt bits w : Int)) = ofInt bits (v - w) := by
  rw [ofInt_eq_ofInt_iff, coe_ofInt, coe_ofInt, ← Int.sub_emod]

theorem ofInt_coe_mul (bits : Nat) (v w : Int) :
    ofInt bits ((ofInt bits v : Int) * (ofInt bits w : Int)) = ofInt bits (v * w) := by
  rw [ofInt_eq_ofInt_iff, coe_ofInt, coe_ofInt, ← Int.mul_emod]

/-- A factor that is no word does not have to be reduced. -/
theorem ofInt_coe_mul_right (bits : Nat) (v w : Int) :
    ofInt bits ((ofInt bits v : Int) * w) = ofInt bits (v * w) := by
  rw [ofInt_eq_ofInt_iff, coe_ofInt, Int.mul_emod, Int.emod_emod_of_dvd _ (dvd_refl _),
    ← Int.mul_emod]

theorem modulus_dvd_modulus {small large : Nat} (h : small ≤ large) :
    (modulus small : Int) ∣ (modulus large : Int) := by
  have hle : min small maxBits ≤ min large maxBits := by omega
  exact_mod_cast Nat.pow_dvd_pow 2 hle

/-- The low bits of a word are a word of the same integer. -/
theorem ofInt_coe_ofInt_of_le {small large : Nat} (h : small ≤ large) (v : Int) :
    ofInt small (ofInt large v : Int) = ofInt small v := by
  rw [ofInt_eq_ofInt_iff, coe_ofInt, Int.emod_emod_of_dvd _ (modulus_dvd_modulus h)]

theorem toInt_ofInt {bits : Nat} (h : 0 < bits) (v : Int) :
    toInt bits (ofInt bits v) = Int.bmod v (modulus bits) := by
  have hne : bits ≠ 0 := by omega
  rw [toInt, if_neg hne, coe_ofInt, Int.emod_bmod]

theorem complement_ofInt (bits : Nat) (v : Int) :
    complement bits (ofInt bits v) = ofInt bits (-1 - v) := by
  rw [complement, ofInt_eq_ofInt_iff, coe_ofInt, Int.sub_emod, Int.emod_emod_of_dvd _ (dvd_refl _),
    ← Int.sub_emod]

end Word

namespace Scalar

theorem bits_pos (k : Scalar) : 0 < k.bits := by cases k <;> decide

theorem bits_le (k : Scalar) : k.bits ≤ Word.maxBits := by cases k <;> decide

theorem modulus_bits (k : Scalar) : Word.modulus k.bits = 2 ^ k.bits :=
  Word.modulus_of_le k.bits_le

/-- The integer of the kind's range that is congruent to `v` modulo two to the kind's width. -/
def reduce (k : Scalar) (v : Int) : Int :=
  if k.isUnsigned then v % (2 ^ k.bits : Nat) else Int.bmod v (2 ^ k.bits)

theorem reduce_emod (k : Scalar) (v : Int) :
    k.reduce v % (2 ^ k.bits : Nat) = v % (2 ^ k.bits : Nat) := by
  unfold reduce
  split
  · exact Int.emod_emod_of_dvd _ (dvd_refl _)
  · exact Int.bmod_emod

theorem reduce_eq_reduce_iff {k : Scalar} {v w : Int} :
    k.reduce v = k.reduce w ↔ v % (2 ^ k.bits : Nat) = w % (2 ^ k.bits : Nat) := by
  constructor
  · intro h
    rw [← k.reduce_emod v, h, k.reduce_emod]
  · intro h
    unfold reduce
    split
    · exact h
    · rw [← Int.emod_bmod v, h, Int.emod_bmod]

@[simp] theorem reduce_reduce (k : Scalar) (v : Int) : k.reduce (k.reduce v) = k.reduce v :=
  reduce_eq_reduce_iff.mpr (k.reduce_emod v)

/-- The words of an integer and of its reduction are the same. -/
@[simp] theorem ofInt_reduce (k : Scalar) (v : Int) :
    Word.ofInt k.bits (k.reduce v) = Word.ofInt k.bits v := by
  rw [Word.ofInt_eq_ofInt_iff, k.modulus_bits]
  exact k.reduce_emod v

theorem reduce_of_isUnsigned {k : Scalar} (h : k.isUnsigned = true) (v : Int) :
    k.reduce v = (Word.ofInt k.bits v : Int) := by
  rw [reduce, if_pos h, Word.coe_ofInt, k.modulus_bits]

theorem reduce_of_isSigned {k : Scalar} (h : k.isUnsigned = false) (v : Int) :
    k.reduce v = Word.toInt k.bits (Word.ofInt k.bits v) := by
  rw [reduce, if_neg (by simp [h]), Word.toInt_ofInt k.bits_pos, k.modulus_bits]

/-- An integer in the range of a kind. -/
def InRange (k : Scalar) (v : Int) : Prop := k.reduce v = v

instance (k : Scalar) (v : Int) : Decidable (k.InRange v) :=
  inferInstanceAs (Decidable (k.reduce v = v))

theorem inRange_reduce (k : Scalar) (v : Int) : k.InRange (k.reduce v) := k.reduce_reduce v

theorem InRange.nonneg {k : Scalar} {v : Int} (h : k.InRange v) (hu : k.isUnsigned = true) :
    0 ≤ v := by
  rw [← h, reduce_of_isUnsigned hu]
  exact Int.natCast_nonneg _

/-- In range, integers are told apart by their words. -/
theorem InRange.eq_of_ofInt_eq {k : Scalar} {v w : Int} (hv : k.InRange v) (hw : k.InRange w)
    (h : Word.ofInt k.bits v = Word.ofInt k.bits w) : v = w := by
  rw [← hv, ← hw, reduce_eq_reduce_iff]
  rw [Word.ofInt_eq_ofInt_iff, k.modulus_bits] at h
  exact h

theorem inRange_zero (k : Scalar) : k.InRange 0 := by
  unfold InRange reduce
  split
  · simp
  · simp

end Scalar
end UnitCompiler
