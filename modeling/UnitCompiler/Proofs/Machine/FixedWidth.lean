import UnitCompiler.Proofs.Machine.Faults
import UnitCompiler.Proofs.Machine.IntegerOperations

/-!
# Arithmetic of a fixed width

What the integer instructions compute, said in bit vectors: on two words of one width they are the
operations on bit vectors of that width.  Words of different widths are computed in the width of the
left one, in which a divisor that is not zero may have no bit left; then the machine ends.
-/

namespace UnitCompiler

section Vectors

variable {w : Nat}

/-- What an instruction means on bit vectors.  Division by zero has no result, other signed
divisions round toward zero, and a shift is by the count modulo the width. -/
def ArithOp.vector? (op : ArithOp) (a b : BitVec w) : Option (BitVec w) :=
  match op with
  | .add => some (a + b)
  | .sub => some (a - b)
  | .mul => some (a * b)
  | .div => if b = 0#w then none else some (.ofInt w (a.toInt.tdiv b.toInt))
  | .rem => if b = 0#w then none else some (.ofInt w (a.toInt.tmod b.toInt))
  | .udiv => if b = 0#w then none else some (a / b)
  | .urem => if b = 0#w then none else some (a % b)
  | .and => some (a &&& b)
  | .or => some (a ||| b)
  | .xor => some (a ^^^ b)
  | .shl => some (a <<< (b.toNat % w))
  | .shr => some (a.sshiftRight (b.toNat % w))
  | .lshr => some (a >>> (b.toNat % w))

/-- What a comparison means on bit vectors. -/
def CompareOp.vector (op : CompareOp) (a b : BitVec w) : Bool :=
  match op with
  | .eq => a == b
  | .ne => a != b
  | .lt => a.toInt < b.toInt
  | .le => a.toInt ≤ b.toInt
  | .gt => b.toInt < a.toInt
  | .ge => b.toInt ≤ a.toInt
  | .ult => a.toNat < b.toNat
  | .ule => a.toNat ≤ b.toNat
  | .ugt => b.toNat < a.toNat
  | .uge => b.toNat ≤ a.toNat

end Vectors

namespace Word

section Vectors

variable {w : Nat} (hw : w ≤ maxBits)

include hw

/-- A vector is a word already. -/
theorem mask_toNat (a : BitVec w) : mask w a.toNat = a.toNat :=
  mask_of_lt (by rw [modulus_of_le hw]; exact a.isLt)

theorem ofInt_eq_toNat (v : Int) : ofInt w v = (BitVec.ofInt w v).toNat := by
  rw [ofInt, modulus_of_le hw, BitVec.toNat_ofInt]

theorem ofInt_toNat_sub (a b : BitVec w) : ofInt w (a.toNat - b.toNat) = (a - b).toNat := by
  have hsub : BitVec.ofInt w (a.toNat - b.toNat) = a - b := by
    rw [Int.sub_eq_add_neg, BitVec.ofInt_add, BitVec.ofInt_neg, BitVec.ofInt_natCast,
      BitVec.ofInt_natCast, BitVec.ofNat_toNat, BitVec.ofNat_toNat, BitVec.setWidth_eq,
      BitVec.setWidth_eq, ← BitVec.sub_eq_add_neg]
  rw [ofInt_eq_toNat hw, hsub]

theorem toInt_toNat (a : BitVec w) : toInt w a.toNat = a.toInt := by
  rw [toInt, BitVec.toInt_eq_toNat_bmod]
  by_cases h : w = 0
  · subst h
    simp [BitVec.toNat_of_zero_length]
  · rw [if_neg h, modulus_of_le hw]

end Vectors

end Word

namespace Machine

section OneWidth

variable {w : Nat} (hw : w ≤ Word.maxBits) (a b : BitVec w)

include hw

/-- Arithmetic on the words of two bit vectors gives the word of the result. -/
theorem integerArith_toNat (op : ArithOp) :
    integerArith op w a.toNat b.toNat =
      match op.vector? a b with
      | some c => .ok c.toNat
      | none => .error .divisionByZero := by
  have hzero : b.toNat = 0 ↔ b = 0#w := by
    rw [BitVec.toNat_eq, BitVec.toNat_ofNat, Nat.zero_mod]
  have hsigned : b.toInt = 0 ↔ b = 0#w := by
    rw [← BitVec.toInt_inj, BitVec.toInt_zero]
  -- a vector of no bits is not shifted at all
  have hcount : b.toNat % max w 1 = b.toNat % w := by
    rcases Nat.eq_zero_or_pos w with rfl | hpos
    · simp [BitVec.toNat_of_zero_length]
    · rw [Nat.max_eq_left hpos]
  unfold integerArith
  simp only [Word.toInt_toNat hw, hcount, hzero, hsigned]
  cases op with
  | add => exact congrArg Except.ok (by rw [Word.mask, Word.modulus_of_le hw, BitVec.toNat_add])
  | sub => exact congrArg Except.ok (Word.ofInt_toNat_sub hw a b)
  | mul => exact congrArg Except.ok (by rw [Word.mask, Word.modulus_of_le hw, BitVec.toNat_mul])
  | and => exact congrArg Except.ok (Word.mask_toNat hw (a &&& b))
  | or => exact congrArg Except.ok (Word.mask_toNat hw (a ||| b))
  | xor => exact congrArg Except.ok (Word.mask_toNat hw (a ^^^ b))
  | shl =>
    refine congrArg Except.ok ?_
    rw [Word.mask, Word.modulus_of_le hw, BitVec.toNat_shiftLeft]
  | shr => exact congrArg Except.ok (Word.ofInt_eq_toNat hw _)
  | lshr =>
    refine congrArg Except.ok ?_
    rw [← BitVec.toNat_ushiftRight, Word.mask_toNat hw]
  | div | rem =>
    by_cases hb : b = 0#w
    · simp only [ArithOp.vector?, hb, if_true]
    · simp only [ArithOp.vector?, hb, if_false, Word.ofInt_eq_toNat hw]
  | udiv =>
    by_cases hb : b = 0#w
    · simp only [ArithOp.vector?, hb, if_true]
    · simp only [ArithOp.vector?, hb, if_false, ← BitVec.toNat_udiv, Word.mask_toNat hw]
  | urem =>
    by_cases hb : b = 0#w
    · simp only [ArithOp.vector?, hb, if_true]
    · simp only [ArithOp.vector?, hb, if_false, ← BitVec.toNat_umod, Word.mask_toNat hw]

/-- Comparing the words of two bit vectors compares the vectors. -/
theorem compareValues_toNat (op : CompareOp) :
    compareValues op (.int a.toNat w) (.int b.toNat w) = .ok (.ofBool (op.vector a b)) := by
  simp only [compareValues, Word.toInt_toNat hw, holds_compare]
  cases op <;>
    simp [isUnsignedCompare, CompareOp.vector, BitVec.toInt_inj, bne, beq_eq_decide]

/-- On two words of one width the instructions are those of bit vectors: arithmetic has the vector's
result, or there is none and the divisor is zero; a comparison answers for the vectors; and what is
computed fits in the width again. -/
theorem instructions_of_vectors (hpos : 0 < w) (lhs rhs : Operand) (type : IrType) :
    (∀ op : ArithOp, arith op lhs rhs (.int a.toNat w) (.int b.toNat w) type =
      match op.vector? a b with
      | some c => .ok (.int c.toNat w)
      | none => .error .divisionByZero) ∧
    (∀ op : CompareOp, compareValues op (.int a.toNat w) (.int b.toNat w) =
      .ok (.ofBool (op.vector a b))) ∧
    (∀ (op : ArithOp) (n bits : Nat),
      arith op lhs rhs (.int a.toNat w) (.int b.toNat w) type = .ok (.int n bits) →
        bits = w ∧ n < 2 ^ w) ∧
    (∀ (op : CompareOp) (n bits : Nat),
      compareValues op (.int a.toNat w) (.int b.toNat w) = .ok (.int n bits) → n < 2 ^ w) := by
  have harith (op : ArithOp) : arith op lhs rhs (.int a.toNat w) (.int b.toNat w) type =
      match op.vector? a b with
      | some c => .ok (.int c.toNat w)
      | none => .error .divisionByZero := by
    simp only [arith, integerArith_toNat hw]
    cases op.vector? a b with
    | some c => rfl
    | none => rfl
  refine ⟨harith, compareValues_toNat hw a b, ?_, ?_⟩
  · intro op n bits h
    rw [harith] at h
    cases hc : op.vector? a b with
    | some c =>
      rw [hc] at h
      cases h
      exact ⟨rfl, c.isLt⟩
    | none =>
      rw [hc] at h
      cases h
  · intro op n bits h
    rw [compareValues_toNat hw] at h
    cases hc : op.vector a b with
    | true =>
      rw [hc] at h
      cases h
      exact Nat.one_lt_two_pow hpos.ne'
    | false =>
      rw [hc] at h
      cases h
      exact Nat.two_pow_pos w

end OneWidth

/-- The least integer of the widest words divided by minus one is the least integer again, with
nothing left over. -/
theorem instructions_of_vectors_least :
    128 ≤ Word.maxBits ∧ 0 < 128 ∧
      arith .div (.argument 0) (.argument 1) (.int (2 ^ 127) 128) (.int (2 ^ 128 - 1) 128) .i128 =
        .ok (.int (2 ^ 127) 128) ∧
      arith .rem (.argument 0) (.argument 1) (.int (2 ^ 127) 128) (.int (2 ^ 128 - 1) 128) .i128 =
        .ok (.int 0 128) := by
  have h := (instructions_of_vectors (w := 128) (by decide) (.intMin 128) (.allOnes 128) (by decide)
    (.argument 0) (.argument 1) .i128).1
  exact ⟨by decide, by decide, h .div, h .rem⟩

section TwoWidths

variable {bits bits' x y : Nat}

/-- The words that are read as zero in a width are the multiples of two to that width. -/
theorem toInt_eq_zero_iff (hy : y < Word.modulus bits') :
    Word.toInt bits y = 0 ↔ y = 0 ∨ 0 < bits ∧ 2 ^ bits ∣ y := by
  have hmax : y < 2 ^ Word.maxBits :=
    hy.trans_le (Nat.pow_le_pow_right (by decide) (Nat.min_le_right _ _))
  have hlarge (n : Nat) (hn : Word.maxBits ≤ n) : 2 ^ n ∣ y ↔ y = 0 := by
    constructor
    · intro h
      exact Nat.eq_zero_of_dvd_of_lt h (hmax.trans_le (Nat.pow_le_pow_right (by decide) hn))
    · rintro rfl
      exact dvd_zero _
  have hdvd (m : Nat) : Int.bmod y m = 0 ↔ m ∣ y := by
    rw [← Int.dvd_iff_bmod_eq_zero, Int.natCast_dvd_natCast]
  rw [Word.toInt, hdvd]
  rcases Nat.eq_zero_or_pos bits with rfl | hpos
  · rw [if_pos rfl, hlarge _ le_rfl]
    simp
  · rw [if_neg hpos.ne']
    rcases Nat.le_total bits Word.maxBits with hle | hle
    · rw [Word.modulus_of_le hle]
      by_cases h0 : y = 0
      · simp [h0]
      · simp [h0, hpos]
    · rw [Word.modulus, Nat.min_eq_right hle, hlarge _ le_rfl, hlarge _ hle]
      tauto

/-- Division of words of any two widths: zero is refused, and everything else has a result of the
dividend's width unless the instruction is signed and the divisor, which is then the wider word, has no
bit in that width; there the machine ends. -/
theorem division_of_widths (bits x : Nat) (hy : y < Word.modulus bits') (lhs rhs : Operand)
    (type : IrType) {op : ArithOp} (hop : op ∈ [ArithOp.div, .rem, .udiv, .urem]) :
    (∃ n < Word.modulus bits, arith op lhs rhs (.int x bits) (.int y bits') type =
      if y = 0 then .error .divisionByZero
      else if DivisorVanishes op bits y then .error .divisorVanishes
      else .ok (.int n bits)) ∧
    (DivisorVanishes op bits y ↔ (op = .div ∨ op = .rem) ∧ y ≠ 0 ∧ 0 < bits ∧ 2 ^ bits ∣ y) ∧
    (DivisorVanishes op bits y → bits < bits') := by
  have hvanishes : DivisorVanishes op bits y ↔
      (op = .div ∨ op = .rem) ∧ y ≠ 0 ∧ 0 < bits ∧ 2 ^ bits ∣ y := by
    rw [DivisorVanishes, toInt_eq_zero_iff hy]
    tauto
  refine ⟨?_, hvanishes, fun h => ?_⟩
  · obtain ⟨n, hn, h⟩ := integerArith_division bits x y hop
    refine ⟨n, hn, ?_⟩
    rw [arith, h]
    split_ifs <;> rfl
  · obtain ⟨-, hne, -, hdvd⟩ := hvanishes.mp h
    have hle : 2 ^ bits ≤ y := Nat.le_of_dvd (Nat.pos_of_ne_zero hne) hdvd
    have hlt : 2 ^ bits < 2 ^ bits' :=
      hle.trans_lt (hy.trans_le (Nat.pow_le_pow_right (by decide) (Nat.min_le_left _ _)))
    exact (Nat.pow_lt_pow_iff_right (by decide)).mp hlt

/-- A divisor of 256 vanishes below a dividend of eight bits. -/
theorem division_of_widths_vanishing :
    256 < Word.modulus 32 ∧ ArithOp.rem ∈ [ArithOp.div, .rem, .udiv, .urem] ∧
      arith .rem (.argument 0) (.argument 1) (.int 3 8) (.int 256 32) .i8 =
        .error .divisorVanishes := by
  have hy : 256 < Word.modulus 32 := by decide
  have hop : ArithOp.rem ∈ [ArithOp.div, .rem, .udiv, .urem] := by decide
  obtain ⟨⟨n, -, h⟩, -⟩ := division_of_widths 8 3 hy (.argument 0) (.argument 1) .i8 hop
  exact ⟨hy, hop, h⟩

end TwoWidths
end Machine
end UnitCompiler
