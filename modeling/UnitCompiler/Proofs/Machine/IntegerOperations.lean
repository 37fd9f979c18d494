import UnitCompiler.Compile.Emit.Arithmetic
import UnitCompiler.Machine.Run
import UnitCompiler.Proofs.Integer.Value

/-!
# Integer instructions

The instruction that is selected for an operator and a kind computes, on the words of two numbers of
that kind, the word of what the operator means.
-/

namespace UnitCompiler

/-- A number as the machine holds it. -/
def IntValue.word (x : IntValue) : Machine.Value := .ofInt x.value x.kind.bits

theorem IntValue.word_ofInt (k : Scalar) (v : Int) :
    (IntValue.ofInt k v).word = Machine.Value.ofInt v k.bits := by
  simp [word, ofInt, Machine.Value.ofInt]

theorem IntValue.word_ofBool (b : Bool) : (IntValue.ofBool b).word = Machine.Value.ofBool b := by
  cases b <;> rfl

namespace Machine

section Arithmetic

variable {k : Scalar} {a b : Int}

/-- A divisor in range is zero exactly when its word is. -/
theorem ofInt_eq_zero_iff (hb : k.InRange b) : Word.ofInt k.bits b = 0 ↔ b = 0 := by
  have hz : Word.ofInt k.bits 0 = 0 := by simp [Word.ofInt]
  constructor
  · intro h
    exact hb.eq_of_ofInt_eq k.inRange_zero (h.trans hz.symm)
  · intro h
    rw [h, hz]

theorem toInt_ofInt_of_inRange (hs : k.isUnsigned = false) (ha : k.InRange a) :
    Word.toInt k.bits (Word.ofInt k.bits a) = a := by
  rw [← Scalar.reduce_of_isSigned hs, ha]

theorem coe_ofInt_of_inRange (hu : k.isUnsigned = true) (ha : k.InRange a) :
    (Word.ofInt k.bits a : Int) = a := by
  rw [← Scalar.reduce_of_isUnsigned hu, ha]

theorem shiftCount_eq (k : Scalar) (b : Int) :
    Word.ofInt k.bits b % max k.bits 1 = IntValue.shiftCount k b := by
  have hdvd : (k.bits : Int) ∣ (Word.modulus k.bits : Int) := by
    cases k <;> decide
  have hmax : max k.bits 1 = k.bits := Nat.max_eq_left k.bits_pos
  have hcoe : ((Word.ofInt k.bits b % k.bits : Nat) : Int) = b % (k.bits : Int) := by
    rw [Int.natCast_emod, Word.coe_ofInt, Int.emod_emod_of_dvd _ hdvd]
  rw [hmax, IntValue.shiftCount, ← hcoe, Int.toNat_natCast]

theorem integerArith_div (ha : k.InRange a) (hb : k.InRange b) (h0 : b ≠ 0) :
    integerArith (if k.isUnsigned then .udiv else .div) k.bits (Word.ofInt k.bits a)
      (Word.ofInt k.bits b) = .ok (Word.ofInt k.bits (a.tdiv b)) := by
  have hy : Word.ofInt k.bits b ≠ 0 := mt (ofInt_eq_zero_iff hb).mp h0
  cases hu : k.isUnsigned with
  | true =>
    have hq : ((Word.ofInt k.bits a / Word.ofInt k.bits b : Nat) : Int) = a.tdiv b := by
      rw [Int.natCast_ediv, coe_ofInt_of_inRange hu ha, coe_ofInt_of_inRange hu hb,
        Int.tdiv_eq_ediv_of_nonneg (ha.nonneg hu)]
    simp [integerArith, hy, hq]
  | false =>
    simp [integerArith, hy, toInt_ofInt_of_inRange hu ha, toInt_ofInt_of_inRange hu hb, h0]

theorem integerArith_rem (ha : k.InRange a) (hb : k.InRange b) (h0 : b ≠ 0) :
    integerArith (if k.isUnsigned then .urem else .rem) k.bits (Word.ofInt k.bits a)
      (Word.ofInt k.bits b) = .ok (Word.ofInt k.bits (a.tmod b)) := by
  have hy : Word.ofInt k.bits b ≠ 0 := mt (ofInt_eq_zero_iff hb).mp h0
  cases hu : k.isUnsigned with
  | true =>
    have hq : ((Word.ofInt k.bits a % Word.ofInt k.bits b : Nat) : Int) = a.tmod b := by
      rw [Int.natCast_emod, coe_ofInt_of_inRange hu ha, coe_ofInt_of_inRange hu hb,
        Int.tmod_eq_emod_of_nonneg (ha.nonneg hu)]
    simp [integerArith, hy, hq]
  | false =>
    simp [integerArith, hy, toInt_ofInt_of_inRange hu ha, toInt_ofInt_of_inRange hu hb, h0]

/-- Division by a zero word faults, whichever way the operands are read. -/
theorem integerArith_zero {op : ArithOp} (hop : op ∈ [ArithOp.div, .udiv, .rem, .urem])
    (bits x : Nat) : integerArith op bits x 0 = .error .divisionByZero := by
  simp only [List.mem_cons, List.not_mem_nil, or_false] at hop
  rcases hop with rfl | rfl | rfl | rfl <;> rfl

theorem integerArith_shr (ha : k.InRange a) (b : Int) :
    integerArith (if k.isUnsigned then .lshr else .shr) k.bits (Word.ofInt k.bits a)
      (Word.ofInt k.bits b) = .ok (Word.ofInt k.bits (a / 2 ^ IntValue.shiftCount k b)) := by
  cases hu : k.isUnsigned with
  | true =>
    have hq : ((Word.ofInt k.bits a >>> IntValue.shiftCount k b : Nat) : Int) =
        a / 2 ^ IntValue.shiftCount k b := by
      rw [Nat.shiftRight_eq_div_pow, Int.natCast_ediv, coe_ofInt_of_inRange hu ha]
      simp
    simp only [integerArith, if_true, shiftCount_eq, Word.mask_eq_ofInt, hq]
  | false =>
    simp only [integerArith, Bool.false_eq_true, if_false, shiftCount_eq,
      toInt_ofInt_of_inRange hu ha, Int.shiftRight_eq_div_pow]
    simp

theorem integerArith_shl (a b : Int) :
    integerArith .shl k.bits (Word.ofInt k.bits a) (Word.ofInt k.bits b) =
      .ok (Word.ofInt k.bits (a * 2 ^ IntValue.shiftCount k b)) := by
  simp only [integerArith, shiftCount_eq, Word.mask_eq_ofInt, Nat.shiftLeft_eq]
  rw [← Word.ofInt_coe_mul_right]
  simp

/-- The selected instruction computes the operator, and faults exactly where it has no result. -/
theorem integerArith_arithOp? (hk : k.isInteger = true) (ha : k.InRange a) (hb : k.InRange b)
    {op : BinaryOp} {instr : ArithOp} (h : op.arithOp? k = some instr) :
    integerArith instr k.bits (Word.ofInt k.bits a) (Word.ofInt k.bits b) =
      match IntValue.arith? op k a b with
      | some v => .ok (Word.ofInt k.bits v)
      | none => .error .divisionByZero := by
  have hf : k.isFloat = false := by simpa [Scalar.isInteger] using hk
  have hzero : b = 0 → Word.ofInt k.bits b = 0 := (ofInt_eq_zero_iff hb).mpr
  cases op <;> simp only [BinaryOp.arithOp?, hf, Bool.false_eq_true, if_false, reduceCtorEq,
    Option.some.injEq] at h <;> subst h
  case add => simp [integerArith, IntValue.arith?, Word.ofInt_coe_add]
  case sub => simp [integerArith, IntValue.arith?, Word.ofInt_coe_sub]
  case mul => simp [integerArith, IntValue.arith?, Word.ofInt_coe_mul]
  case div =>
    by_cases h0 : b = 0
    · rw [hzero h0, integerArith_zero (by split <;> decide)]
      simp [IntValue.arith?, h0]
    · rw [integerArith_div ha hb h0]
      simp [IntValue.arith?, h0]
  case rem =>
    by_cases h0 : b = 0
    · rw [hzero h0, integerArith_zero (by split <;> decide)]
      simp [IntValue.arith?, h0]
    · rw [integerArith_rem ha hb h0]
      simp [IntValue.arith?, h0]
  case bitAnd => simp [integerArith, IntValue.arith?, IntValue.onBits]
  case bitOr => simp [integerArith, IntValue.arith?, IntValue.onBits]
  case bitXor => simp [integerArith, IntValue.arith?, IntValue.onBits]
  case shl => exact integerArith_shl a b
  case shr => exact integerArith_shr ha b

end Arithmetic

section Comparison

variable {k : Scalar} {a b : Int}

theorem holds_compare {α : Type} [LinearOrder α] (op : CompareOp) (x y : α) :
    holds op (compare x y) =
      match op with
      | .eq => decide (x = y)
      | .ne => decide (x ≠ y)
      | .lt | .ult => decide (x < y)
      | .le | .ule => decide (x ≤ y)
      | .gt | .ugt => decide (y < x)
      | .ge | .uge => decide (y ≤ x) := by
  rcases lt_trichotomy x y with h | h | h
  · rw [compare_lt_iff_lt.mpr h]
    cases op <;> simp [holds, h, h.ne, h.le, h.not_ge, h.not_gt]
  · rw [compare_eq_iff_eq.mpr h]
    cases op <;> simp [holds, h]
  · rw [compare_gt_iff_gt.mpr h]
    cases op <;> simp [holds, h, h.ne', h.le, h.not_ge, h.not_gt]

/-- The selected comparison of two words tells how the numbers compare. -/
theorem compareValues_compareOp? (ha : k.InRange a) (hb : k.InRange b) {op : BinaryOp}
    {instr : CompareOp} (h : op.compareOp? k.isUnsigned = some instr) :
    compareValues instr (.ofInt a k.bits) (.ofInt b k.bits) =
      .ok (.ofBool (IntValue.compares op a b)) := by
  have heq : Word.toInt k.bits (Word.ofInt k.bits a) = Word.toInt k.bits (Word.ofInt k.bits b) ↔
      a = b := by
    constructor
    · intro h
      refine ha.eq_of_ofInt_eq hb ?_
      rw [Word.toInt_ofInt k.bits_pos, Word.toInt_ofInt k.bits_pos] at h
      rw [← Word.ofInt_bmod, h, Word.ofInt_bmod]
    · rintro rfl
      rfl
  cases hu : k.isUnsigned with
  | true =>
    have hlt (a b : Int) (ha : k.InRange a) (hb : k.InRange b) :
        Word.ofInt k.bits a < Word.ofInt k.bits b ↔ a < b := by
      rw [← Int.ofNat_lt, coe_ofInt_of_inRange hu ha, coe_ofInt_of_inRange hu hb]
    have hle (a b : Int) (ha : k.InRange a) (hb : k.InRange b) :
        Word.ofInt k.bits a ≤ Word.ofInt k.bits b ↔ a ≤ b := by
      rw [← Int.ofNat_le, coe_ofInt_of_inRange hu ha, coe_ofInt_of_inRange hu hb]
    rw [hu] at h
    cases op <;> simp only [BinaryOp.compareOp?, if_true, reduceCtorEq, Option.some.injEq] at h <;>
      subst h <;>
      simp [compareValues, Value.ofInt, isUnsignedCompare, holds_compare, IntValue.compares,
        hlt _ _ ha hb, hlt _ _ hb ha, hle _ _ ha hb, hle _ _ hb ha, heq, bne, beq_eq_decide]
  | false =>
    rw [hu] at h
    cases op <;> simp only [BinaryOp.compareOp?, Bool.false_eq_true, if_false, reduceCtorEq,
        Option.some.injEq] at h <;>
      subst h <;>
      simp [compareValues, Value.ofInt, isUnsignedCompare, holds_compare, IntValue.compares,
        toInt_ofInt_of_inRange hu ha, toInt_ofInt_of_inRange hu hb, bne, beq_eq_decide]

end Comparison

section Conversion

theorem intBits?_machineType {k : Scalar} (hk : k.isInteger = true) :
    k.machineType.intBits? = some k.bits := by
  cases k <;> first | rfl | simp [Scalar.isInteger, Scalar.isFloat] at hk

/-- A conversion instruction between integer kinds gives the word of the converted number. -/
theorem convertValue_ofScalars {x : IntValue} (hx : x.WellFormed) {k : Scalar}
    (hk : k.isInteger = true) (hb : k ≠ .bool) {op : ConvertOp}
    (h : (Conversion.ofScalars x.kind k).op? = some op) :
    convertValue op x.word k.machineType = .ok (x.convert k).word := by
  have hword : (x.convert k).word = .ofInt x.value k.bits := by
    rw [IntValue.convert, if_neg hb, IntValue.word_ofInt]
  have hsource : x.kind.isFloat = false := by simpa [Scalar.isInteger] using hx.1
  have htarget : k.isFloat = false := by simpa [Scalar.isInteger] using hk
  simp only [Conversion.ofScalars, hsource, htarget] at h
  rw [hword]
  split_ifs at h with hlt heq hu
  · -- the low bits of the word are those of the number
    obtain rfl : ConvertOp.trunc = op := by simpa [Conversion.op?] using h
    simp [convertValue, intBits?_machineType hk, IntValue.word, Value.ofInt, Value.unsigned?,
      Word.ofInt_coe_ofInt_of_le hlt.le]
  · simp [Conversion.op?] at h
  · obtain rfl : ConvertOp.zext = op := by simpa [Conversion.op?] using h
    simp [convertValue, intBits?_machineType hk, IntValue.word, Value.ofInt, Value.unsigned?,
      coe_ofInt_of_inRange hu hx.2]
  · obtain rfl : ConvertOp.sext = op := by simpa [Conversion.op?] using h
    simp [convertValue, intBits?_machineType hk, IntValue.word, Value.ofInt, Value.signed?,
      toInt_ofInt_of_inRange (by simpa using hu) hx.2]

/-- Kinds that need no instruction have one width. -/
theorem bits_eq_of_noop {a b : Scalar} (ha : a.isInteger = true) (hb : b.isInteger = true)
    (h : (Conversion.ofScalars a b).op? = none) : a.bits = b.bits := by
  have hsource : a.isFloat = false := by simpa [Scalar.isInteger] using ha
  have htarget : b.isFloat = false := by simpa [Scalar.isInteger] using hb
  simp only [Conversion.ofScalars, hsource, htarget] at h
  split_ifs at h with hlt heq hu
  · simp [Conversion.op?] at h
  · exact heq
  · simp [Conversion.op?] at h
  · simp [Conversion.op?] at h

theorem ofBits?_bits {k : Scalar} (hk : k.isInteger = true) :
    IrType.ofBits? k.bits = some k.machineType := by
  cases k <;> first | rfl | simp [Scalar.isInteger, Scalar.isFloat] at hk

theorem machineType_eq_of_noop {a b : Scalar} (ha : a.isInteger = true) (hb : b.isInteger = true)
    (h : (Conversion.ofScalars a b).op? = none) : a.machineType = b.machineType := by
  have hsome := ofBits?_bits ha
  rw [bits_eq_of_noop ha hb h, ofBits?_bits hb] at hsome
  exact (Option.some.inj hsome).symm

/-- Between kinds that need no instruction the word stays as it is. -/
theorem word_convert_of_noop {x : IntValue} (hx : x.WellFormed) {k : Scalar}
    (hk : k.isInteger = true) (hb : k = .bool → x.kind = .bool)
    (h : (Conversion.ofScalars x.kind k).op? = none) :
    (x.convert k).word = x.word := by
  by_cases hkb : k = .bool
  · rw [hkb, ← hb hkb, IntValue.convert_self hx]
  · have hbits := bits_eq_of_noop hx.1 hk h
    rw [IntValue.convert, if_neg hkb, IntValue.word_ofInt, IntValue.word, hbits]

end Conversion

section Unary

theorem word_neg (x : IntValue) :
    x.neg.word = .ofInt (-Word.toInt x.kind.bits (Word.ofInt x.kind.bits x.value)) x.kind.bits := by
  rw [IntValue.neg, IntValue.word_ofInt, Value.ofInt, Value.ofInt, Word.toInt_ofInt x.kind.bits_pos]
  congr 1
  rw [Word.ofInt_eq_ofInt_iff, ← Int.zero_sub, ← Int.zero_sub (Int.bmod _ _), Int.sub_emod 0,
    Int.sub_emod 0 (Int.bmod _ _), Int.bmod_emod]

theorem word_bitNot (x : IntValue) :
    x.bitNot.word =
      .int (Word.complement x.kind.bits (Word.ofInt x.kind.bits x.value)) x.kind.bits := by
  rw [IntValue.bitNot, IntValue.word_ofInt, Value.ofInt, Word.complement_ofInt]

end Unary

end Machine
end UnitCompiler
