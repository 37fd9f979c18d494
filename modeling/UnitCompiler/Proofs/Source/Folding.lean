import Mathlib.Tactic.IntervalCases
import UnitCompiler.Proofs.Compile.Constants

/-!
# Folding and evaluation

A compile-time value denotes a number of its kind, up to multiples of the kind's modulus.  As long as
every operand is in the range of its kind, folding a closed expression gives a value that denotes what
the expression stands for.
-/

namespace UnitCompiler

namespace Scalar

theorem isSigned_eq {k : Scalar} (hk : k.isInteger = true) : k.isSigned = !k.isUnsigned := by
  rw [isSigned, hk, Bool.true_and]

/-- Below 128 bits, wrapping an integer reduces it. -/
theorem wrap_eq_reduce {k : Scalar} (hk : k.isInteger = true) (hbits : k.bits < 128) (v : Int) :
    k.wrap v = k.reduce v := by
  have hcast : ((2 ^ k.bits : Nat) : Int) = 2 ^ k.bits := by push_cast; rfl
  unfold wrap reduce
  rw [if_neg (by omega), isSigned_eq hk, hcast]
  cases hu : k.isUnsigned with
  | true => simp
  | false =>
    have hpos := k.bits_pos
    have hpow : (2 : Int) ^ k.bits = 2 * 2 ^ (k.bits - 1) := by
      rw [← pow_succ', Nat.sub_add_cancel hpos]
    have hhalf : (((2 ^ k.bits : Nat) : Int) + 1) / 2 = 2 ^ (k.bits - 1) := by
      rw [hcast, hpow]
      omega
    simp only [Bool.not_false, Bool.true_and, decide_eq_true_eq, Bool.false_eq_true, if_false]
    rw [Int.bmod_def, hhalf, hcast]
    by_cases hlow : v % 2 ^ k.bits < 2 ^ (k.bits - 1)
    · rw [if_pos hlow, if_neg (by omega)]
    · rw [if_neg hlow, if_pos (by omega)]

theorem wrap_of_le {k : Scalar} (hbits : 128 ≤ k.bits) (v : Int) : k.wrap v = v := by
  rw [wrap, if_pos hbits]

/-- Wrapping changes an integer by multiples of the modulus. -/
@[simp] theorem reduce_wrap {k : Scalar} (hk : k.isInteger = true) (v : Int) :
    k.reduce (k.wrap v) = k.reduce v := by
  by_cases hbits : 128 ≤ k.bits
  · rw [wrap_of_le hbits]
  · rw [wrap_eq_reduce hk (by omega), reduce_reduce]

theorem reduce_wrapFull (k : Scalar) (v : Int) : k.reduce (Word.wrapFull v) = k.reduce v := by
  rw [reduce_eq_reduce_iff, ← k.modulus_bits]
  have hdvd : (Word.modulus k.bits : Int) ∣ ((2 ^ Word.maxBits : Nat) : Int) := by
    exact_mod_cast Nat.pow_dvd_pow 2 (Nat.min_le_right _ _)
  rw [Word.wrapFull, ← Int.emod_emod_of_dvd (Int.bmod v _) hdvd, Int.bmod_emod,
    Int.emod_emod_of_dvd _ hdvd]

/-- A count below the width of a kind is in the kind's range. -/
theorem inRange_of_lt_bits {k : Scalar} (hk : k.isInteger = true) (hb : k ≠ .bool) {v : Int}
    (h₀ : 0 ≤ v) (h : v < k.bits) : k.InRange v := by
  unfold InRange reduce
  cases k <;> simp [isInteger, isFloat] at hk hb <;>
    simp only [isUnsigned, bits, if_true, Bool.false_eq_true, if_false, Int.bmod_def] at h ⊢ <;>
    omega

/-- Only multiples of the modulus reduce to zero, and zero is the only one in a range that is not
wider. -/
theorem reduce_ne_zero {a k : Scalar} {v : Int} (hle : a.bits ≤ k.bits) (hv : a.InRange v)
    (hne : v ≠ 0) : k.reduce v ≠ 0 := by
  intro hzero
  have hmod : v % (2 ^ k.bits : Nat) = 0 := by
    have h := k.reduce_emod v
    rw [hzero, Int.zero_emod] at h
    exact h.symm
  have hdvd : ((2 ^ a.bits : Nat) : Int) ∣ ((2 ^ k.bits : Nat) : Int) := by
    exact_mod_cast Nat.pow_dvd_pow 2 hle
  apply hne
  rw [← hv, ← inRange_zero a, reduce_eq_reduce_iff, Int.zero_emod]
  exact Int.emod_eq_zero_of_dvd (hdvd.trans (Int.dvd_of_emod_eq_zero hmod))

theorem reduce_sub_reduce (k : Scalar) (a v : Int) : k.reduce (a - k.reduce v) = k.reduce (a - v) := by
  rw [reduce_eq_reduce_iff, Int.sub_emod, k.reduce_emod, ← Int.sub_emod]

theorem reduce_neg_reduce (k : Scalar) (v : Int) : k.reduce (-k.reduce v) = k.reduce (-v) := by
  rw [← zero_sub, reduce_sub_reduce, zero_sub]

/-- A literal is of one of three kinds. -/
theorem forLiteral_cases (v : Int) :
    forLiteral v = .int ∨ forLiteral v = .long ∨ forLiteral v = .cent := by
  unfold forLiteral
  split
  · exact Or.inl rfl
  · split
    · exact Or.inr (Or.inl rfl)
    · exact Or.inr (Or.inr rfl)

theorem wider_eq_common {a b : Scalar} (ha : a.isInteger = true) (hb : b.isInteger = true) :
    a.wider b = a.common b := by
  cases a <;> cases b <;> first | rfl | simp_all [isInteger, isFloat]

theorem bits_le_common {a b : Scalar} (ha : a.isInteger = true) (hb : b.isInteger = true) :
    b.bits ≤ (a.common b).bits := by
  cases a <;> cases b <;> first | decide | simp_all [isInteger, isFloat]

theorem common_bool (a : Scalar) : a.common .bool = a := by cases a <;> rfl

theorem bool_common (a : Scalar) : Scalar.bool.common a = a := by cases a <;> rfl

end Scalar

/-- Operations on bits act on the low bits alone. -/
theorem IntValue.onBits_congr {k : Scalar} {op : Nat → Nat → Nat}
    (hop : ∀ a b n : Nat, op a b % 2 ^ n = op (a % 2 ^ n) (b % 2 ^ n)) (a b : Int) :
    k.reduce (ConstValue.onBits op a b) = k.reduce (IntValue.onBits k op a b) := by
  have hlow (v : Int) : Word.ofInt Word.maxBits v % 2 ^ k.bits = Word.ofInt k.bits v := by
    rw [← k.modulus_bits]
    have h := Word.ofInt_coe_ofInt_of_le k.bits_le v
    rwa [← Word.mask_eq_ofInt] at h
  have hlow' (v : Int) : Word.ofInt k.bits v % 2 ^ k.bits = Word.ofInt k.bits v := by
    rw [← k.modulus_bits]
    exact Nat.mod_eq_of_lt (Word.ofInt_lt _ _)
  have hdvd : ((2 ^ k.bits : Nat) : Int) ∣ ((2 ^ Word.maxBits : Nat) : Int) := by
    exact_mod_cast Nat.pow_dvd_pow 2 k.bits_le
  rw [Scalar.reduce_eq_reduce_iff, ConstValue.onBits, IntValue.onBits, Word.toInt,
    if_neg (by decide), Word.modulus_of_le (le_refl _), ← Int.emod_emod_of_dvd (Int.bmod _ _) hdvd,
    Int.bmod_emod, Int.emod_emod_of_dvd _ hdvd]
  norm_cast
  rw [hop, hop (Word.ofInt k.bits a), hlow, hlow, hlow', hlow']

namespace ConstValue

/-- The number that a value stands for, up to multiples of its kind's modulus. -/
def Denotes : ConstValue → IntValue → Prop
  | .bool b, x => x = .ofBool b
  | .int v k, x => k.isInteger = true ∧ k ≠ .bool ∧ x = .ofInt k v
  | _, _ => False

/-- A value that its kind has room for. -/
def InRange : ConstValue → Prop
  | .int v k => k.InRange v
  | _ => True

instance : (c : ConstValue) → Decidable c.InRange
  | .int v k => inferInstanceAs (Decidable (k.InRange v))
  | .float _ _ | .bool _ | .str _ | .null => isTrue trivial

/-- The operands of a binary operator that folding and evaluation treat alike: they are in range in
their own kinds and in the one they are computed in, and two truth values are only compared. -/
structure Compatible (op : BinaryOp) (a b : ConstValue) : Prop where
  left : a.InRange
  right : b.InRange
  together : ∀ v w, a.toInt? = some v → b.toInt? = some w →
    (integerKind a b).InRange ((integerKind a b).wrap v) ∧
      (integerKind a b).InRange ((integerKind a b).wrap w)
  compared : a.type = .bool → b.type = .bool → op.isComparison = true

variable {c : ConstValue} {x : IntValue}

theorem Denotes.wellFormed (h : c.Denotes x) : x.WellFormed := by
  cases c with
  | int v k =>
    obtain ⟨hk, -, rfl⟩ := h
    exact IntValue.wellFormed_ofInt hk v
  | bool b =>
    subst h
    exact IntValue.wellFormed_ofBool b
  | float _ _ | str _ | null => exact h.elim

/-- A value and the number it denotes have the same kind. -/
theorem Denotes.type_eq (h : c.Denotes x) : c.type = .scalar x.kind := by
  cases c with
  | int v k =>
    obtain ⟨-, -, rfl⟩ := h
    rfl
  | bool b =>
    subst h
    rfl
  | float _ _ | str _ | null => exact h.elim

theorem Denotes.toInt?_eq (h : c.Denotes x) (hrange : c.InRange) : c.toInt? = some x.value := by
  cases c with
  | int v k =>
    obtain ⟨-, -, rfl⟩ := h
    exact congrArg some (Eq.symm hrange)
  | bool b =>
    subst h
    rfl
  | float _ _ | str _ | null => exact h.elim

theorem Denotes.truth?_eq (h : c.Denotes x) (hrange : c.InRange) : c.truth? = some x.truth := by
  cases c with
  | int v k =>
    obtain ⟨-, -, rfl⟩ := h
    have hv : (IntValue.ofInt k v).value = v := hrange
    rw [truth?, IntValue.truth, hv]
  | bool b =>
    subst h
    rw [IntValue.truth_ofBool]
    rfl
  | float _ _ | str _ | null => exact h.elim

theorem denotes_bool (b : Bool) : (ConstValue.bool b).Denotes (.ofBool b) := rfl

theorem denotes_wrapped {k : Scalar} (hk : k.isInteger = true) (hb : k ≠ .bool) {v w : Int}
    (h : k.reduce v = k.reduce w) : (wrapped k v).Denotes (.ofInt k w) := by
  refine ⟨hk, hb, ?_⟩
  rw [IntValue.ofInt, IntValue.ofInt, Scalar.reduce_wrap hk, Scalar.reduce_wrapFull, h]

/-- The conversion to a kind denotes the converted number. -/
theorem Denotes.convert {k : Scalar} {c' : ConstValue} (hk : k.isInteger = true) (h : c.Denotes x)
    (hrange : c.InRange) (hc : c.convert (.scalar k) = some c') : c'.Denotes (x.convert k) := by
  have hfloat : k.isFloat = false := by simpa [Scalar.isInteger] using hk
  have hscalar : SourceType.scalar? (.scalar k) = some k := rfl
  unfold ConstValue.convert at hc
  rw [hscalar] at hc
  unfold IntValue.convert
  by_cases hb : k = .bool
  · simp only [Option.bind_eq_bind, Option.bind_some, hb, if_true, h.truth?_eq hrange] at hc
    cases hc
    rw [if_pos hb]
    exact denotes_bool x.truth
  · simp only [Option.bind_eq_bind, Option.bind_some, hb, if_false, hfloat, Bool.false_eq_true] at hc
    have hwrap (v : Int) (hv : c.toInt? = some v) (h' : c' = .int (k.wrap v) k) :
        c'.Denotes (.ofInt k x.value) := by
      rw [h.toInt?_eq hrange] at hv
      cases hv
      subst h'
      exact ⟨hk, hb, by rw [IntValue.ofInt, IntValue.ofInt, Scalar.reduce_wrap hk]⟩
    rw [if_neg hb]
    cases c with
    | int v k₁ =>
      cases hc
      exact hwrap v rfl rfl
    | bool b =>
      cases hc
      exact hwrap _ rfl rfl
    | float _ _ | str _ | null => exact h.elim

theorem compareBy_compare {op : BinaryOp} (hop : op.isComparison = true) (a b : Int) :
    compareBy op (some (compare a b)) = some (IntValue.compares op a b) := by
  rcases lt_trichotomy a b with h | rfl | h
  · rw [compare_lt_iff_lt.mpr h]
    cases op <;> simp [BinaryOp.isComparison] at hop <;>
      simp [compareBy, IntValue.compares, bne, h, h.le, h.ne, h.not_ge, h.not_gt]
  · rw [compare_eq_iff_eq.mpr rfl]
    cases op <;> simp [BinaryOp.isComparison] at hop <;> simp [compareBy, IntValue.compares]
  · rw [compare_gt_iff_gt.mpr h]
    cases op <;> simp [BinaryOp.isComparison] at hop <;>
      simp [compareBy, IntValue.compares, bne, h, h.le, h.ne', h.not_ge, h.not_gt]

/-- The operand that an operator admits is admitted as well in the kind it is computed in. -/
theorem operandProblem?_wrap {op : BinaryOp} {a k : Scalar} {v : Int} (hk : k.isInteger = true)
    (hb : k ≠ .bool) (hle : a.bits ≤ k.bits) (hv : a.InRange v) (hwrap : k.InRange (k.wrap v))
    (h : operandProblem? op k v = none) : operandProblem? op k (k.wrap v) = none := by
  have hreduce : k.wrap v = k.reduce v := by rw [← hwrap, Scalar.reduce_wrap hk]
  have hshift (hv : 0 ≤ v ∧ v < k.bits) : k.wrap v = v := by
    rw [hreduce]
    exact Scalar.inRange_of_lt_bits hk hb hv.1 hv.2
  cases op <;> simp only [operandProblem?, ite_eq_right_iff, ite_eq_left_iff, reduceCtorEq, imp_false,
    Classical.not_not] at h ⊢
  case div | rem =>
    rw [hreduce]
    exact Scalar.reduce_ne_zero hle hv h
  case shl | shr =>
    rwa [hshift h]

/-- Folding two integers of a kind gives what evaluating them gives. -/
theorem foldIntegers_denotes {op : BinaryOp} {k : Scalar} {a b : Int} (hk : k.isInteger = true)
    (hb : k ≠ .bool) (hop : operandProblem? op k b = none) (h : foldIntegers op k a b = some c) :
    ∃ z, (if op.isComparison then some (IntValue.ofBool (IntValue.compares op a b))
      else (IntValue.arith? op k a b).map (IntValue.ofInt k)) = some z ∧ c.Denotes z := by
  have hcount (hv : 0 ≤ b ∧ b < k.bits) : IntValue.shiftCount k b = b.toNat := by
    rw [IntValue.shiftCount, Int.emod_eq_of_lt hv.1 hv.2]
  have hcompares (hcomparison : op.isComparison = true)
      (h : (compareBy op (some (compare a b))).map ConstValue.bool = some c) :
      ∃ z, (if op.isComparison then some (IntValue.ofBool (IntValue.compares op a b))
        else (IntValue.arith? op k a b).map (IntValue.ofInt k)) = some z ∧ c.Denotes z := by
    rw [compareBy_compare hcomparison] at h
    cases h
    rw [if_pos hcomparison]
    exact ⟨_, rfl, denotes_bool _⟩
  cases op
  case add | sub | mul =>
    cases h
    exact ⟨_, rfl, denotes_wrapped hk hb rfl⟩
  case div | rem =>
    simp only [operandProblem?, ite_eq_right_iff, reduceCtorEq, imp_false] at hop
    cases h
    simp only [BinaryOp.isComparison, Bool.false_eq_true, if_false, IntValue.arith?, hop]
    exact ⟨_, rfl, denotes_wrapped hk hb rfl⟩
  case bitAnd =>
    cases h
    exact ⟨_, rfl, denotes_wrapped hk hb (IntValue.onBits_congr (fun _ _ _ => Nat.and_mod_two_pow) a b)⟩
  case bitOr =>
    cases h
    exact ⟨_, rfl, denotes_wrapped hk hb (IntValue.onBits_congr (fun _ _ _ => Nat.or_mod_two_pow) a b)⟩
  case bitXor =>
    cases h
    exact ⟨_, rfl, denotes_wrapped hk hb (IntValue.onBits_congr (fun _ _ _ => Nat.xor_mod_two_pow) a b)⟩
  case shl | shr =>
    simp only [operandProblem?, ite_eq_left_iff, reduceCtorEq, imp_false, Classical.not_not] at hop
    cases h
    simp only [BinaryOp.isComparison, Bool.false_eq_true, if_false, IntValue.arith?, hcount hop]
    exact ⟨_, rfl, denotes_wrapped hk hb rfl⟩
  case eq | ne | lt | le | gt | ge => exact hcompares rfl h
  all_goals cases h

theorem foldBinary_of_ints {op : BinaryOp} {a b : ConstValue} {v w : Int} (ha : a.toInt? = some v)
    (hb : b.toInt? = some w) : foldBinary op a b =
      match operandProblem? op (integerKind a b) w with
      | some problem => .error problem
      | none => .ok (foldIntegers op (integerKind a b) ((integerKind a b).wrap v)
          ((integerKind a b).wrap w)) := by
  cases a <;> cases ha <;> cases b <;> cases hb <;> rfl

/-- The kind that two folded operands are computed in is the common one, unless both are truth
values. -/
theorem integerKind_eq_common {a b : ConstValue} {x y : IntValue} (ha : a.Denotes x) (hb : b.Denotes y)
    (hbool : ¬ (x.kind = .bool ∧ y.kind = .bool)) : integerKind a b = x.kind.common y.kind := by
  cases a with
  | int v k =>
    obtain ⟨hk, -, rfl⟩ := ha
    cases b with
    | int w k' =>
      obtain ⟨hk', -, rfl⟩ := hb
      exact Scalar.wider_eq_common hk hk'
    | bool b =>
      subst hb
      exact (Scalar.common_bool k).symm
    | float _ _ | str _ | null => exact hb.elim
  | bool a =>
    subst ha
    cases b with
    | int w k' =>
      obtain ⟨-, -, rfl⟩ := hb
      exact (Scalar.bool_common k').symm
    | bool b =>
      subst hb
      exact absurd ⟨rfl, rfl⟩ hbool
    | float _ _ | str _ | null => exact hb.elim
  | float _ _ | str _ | null => exact ha.elim

/-- Comparing two truth values gives what comparing two integers gives. -/
theorem foldIntegers_bools {op : BinaryOp} (hop : op.isComparison = true) (p q : Bool) :
    foldIntegers op .int (Scalar.int.wrap (IntValue.ofBool p).value)
      (Scalar.int.wrap (IntValue.ofBool q).value) =
    some (.bool (IntValue.compares op ((IntValue.ofBool p).convert .bool).value
      ((IntValue.ofBool q).convert .bool).value)) := by
  have hwrap (b : Bool) : Scalar.int.wrap (IntValue.ofBool b).value = (IntValue.ofBool b).value := by
    cases b <;> rfl
  have hconvert (b : Bool) : (IntValue.ofBool b).convert .bool = IntValue.ofBool b := by
    cases b <;> rfl
  rw [hwrap, hwrap, hconvert, hconvert]
  have hcompare := compareBy_compare hop (IntValue.ofBool p).value (IntValue.ofBool q).value
  cases op <;> simp [BinaryOp.isComparison] at hop <;> simp only [foldIntegers, hcompare] <;> rfl

theorem Denotes.eq_bool (h : c.Denotes x) (hkind : x.kind = .bool) :
    ∃ b, c = .bool b ∧ x = .ofBool b := by
  cases c with
  | int v k =>
    obtain ⟨-, hb, rfl⟩ := h
    exact absurd hkind hb
  | bool b => exact ⟨b, rfl, h⟩
  | float _ _ | str _ | null => exact h.elim

/-- Folding a binary operator gives what evaluating it gives. -/
theorem foldBinary_denotes {op : BinaryOp} {a b : ConstValue} {x y : IntValue} (ha : a.Denotes x)
    (hb : b.Denotes y) (hcompatible : Compatible op a b) (h : foldBinary op a b = .ok (some c)) :
    ∃ z, IntValue.binary? op x y = some z ∧ c.Denotes z := by
  have hx := ha.toInt?_eq hcompatible.left
  have hy := hb.toInt?_eq hcompatible.right
  obtain ⟨hv, hw⟩ := hcompatible.together _ _ hx hy
  rw [foldBinary_of_ints hx hy] at h
  cases hproblem : operandProblem? op (integerKind a b) y.value with
  | some problem =>
    rw [hproblem] at h
    cases h
  | none =>
    rw [hproblem] at h
    have hfold := Except.ok.inj h
    unfold IntValue.binary?
    by_cases hbool : x.kind = .bool ∧ y.kind = .bool
    · obtain ⟨p, rfl, rfl⟩ := ha.eq_bool hbool.1
      obtain ⟨q, rfl, rfl⟩ := hb.eq_bool hbool.2
      have hcomparison := hcompatible.compared rfl rfl
      cases (foldIntegers_bools hcomparison p q).symm.trans hfold
      rw [if_pos hcomparison]
      exact ⟨_, rfl, denotes_bool _⟩
    · have hkind := integerKind_eq_common ha hb hbool
      rw [hkind] at hfold hv hw hproblem
      have hx' := ha.wellFormed
      have hy' := hb.wellFormed
      have hk := Scalar.isInteger_common hx'.1 hy'.1
      have hne : x.kind.common y.kind ≠ .bool := fun heq => hbool (Scalar.common_eq_bool_iff.mp heq)
      have hwrap (z : IntValue)
          (hz : (x.kind.common y.kind).InRange ((x.kind.common y.kind).wrap z.value)) :
          (z.convert (x.kind.common y.kind)).value = (x.kind.common y.kind).wrap z.value := by
        rw [IntValue.convert, if_neg hne, ← hz, Scalar.reduce_wrap hk]
        rfl
      simp only [hwrap x hv, hwrap y hw]
      exact foldIntegers_denotes hk hne (operandProblem?_wrap hk hne
        (Scalar.bits_le_common hx'.1 hy'.1) hy'.2 hw hproblem) hfold

end ConstValue

namespace IntExpr

/-- Folding meets only operands in the range of their kind, and computes with no two truth values. -/
def FoldsInRange : IntExpr → Prop
  | .int _ | .bool _ | .char _ | .var _ => True
  | .neg e | .bitNot e => e.FoldsInRange
  | .not e | .cast _ e => e.FoldsInRange ∧ ∀ a, e.fold = .ok (some a) → a.InRange
  | .binary op l r => l.FoldsInRange ∧ r.FoldsInRange ∧
      ∀ a, l.fold = .ok (some a) → a.InRange ∧ ∀ b, r.fold = .ok (some b) →
        if op.isLogical then b.InRange else ConstValue.Compatible op a b

variable {t : Tree} {id : NodeId} {c : ConstValue}

/-- What an unary operator folds comes from what its operand folds. -/
theorem fold_of_map {e : Except Problem (Option ConstValue)} {f : ConstValue → Option ConstValue}
    (h : e.map (·.bind f) = .ok (some c)) : ∃ a, e = .ok (some a) ∧ f a = some c := by
  rcases e with _ | _ | a
  · cases h
  · cases h
  · exact ⟨a, rfl, Except.ok.inj h⟩

/-- What a binary operator folds comes from what its operands fold. -/
theorem fold_of_binary {op : BinaryOp} {l r : IntExpr}
    (h : (IntExpr.binary op l r).fold = .ok (some c)) : ∃ a, l.fold = .ok (some a) ∧
      if op.isLogical then foldLogical op a r.fold = .ok (some c)
      else ∃ b, r.fold = .ok (some b) ∧ ConstValue.foldBinary op a b = .ok (some c) := by
  rw [fold] at h
  rcases hl : l.fold with _ | _ | a
  · rw [hl] at h
    cases h
  · rw [hl] at h
    cases h
  · rw [hl] at h
    refine ⟨a, rfl, ?_⟩
    cases hlogical : op.isLogical with
    | true =>
      simp only [hlogical, if_true] at h ⊢
      exact h
    | false =>
      simp only [hlogical, Bool.false_eq_true, if_false] at h ⊢
      rcases hr : r.fold with _ | _ | b
      · rw [hr] at h
        cases h
      · rw [hr] at h
        cases h
      · rw [hr] at h
        exact ⟨b, rfl, h⟩

theorem foldLogical_denotes {op : BinaryOp} {a : ConstValue} {x : IntValue}
    {right : Except Problem (Option ConstValue)} {y : Option IntValue}
    (ha : a.Denotes x) (hrange : a.InRange)
    (hright : ∀ b, right = .ok (some b) → b.InRange ∧ ∃ z, y = some z ∧ b.Denotes z)
    (h : foldLogical op a right = .ok (some c)) :
    ∃ z, (if x.truth = (op == .or) then some (.ofBool x.truth)
      else y.map fun z => .ofBool z.truth) = some z ∧ c.Denotes z := by
  unfold foldLogical at h
  rw [ha.truth?_eq hrange] at h
  simp only at h
  by_cases hdecides : x.truth = (op == .or)
  · rw [if_pos (by simpa using hdecides)] at h
    cases h
    rw [if_pos hdecides]
    exact ⟨_, rfl, ConstValue.denotes_bool _⟩
  · rw [if_neg (by simpa using hdecides)] at h
    rcases right with _ | _ | b
    · cases h
    · cases h
    · obtain ⟨hb, z, rfl, hz⟩ := hright b rfl
      have hvalue : (b.truth?).map ConstValue.bool = some c := Except.ok.inj h
      rw [hz.truth?_eq hb] at hvalue
      cases hvalue
      rw [if_neg hdecides]
      exact ⟨_, rfl, ConstValue.denotes_bool _⟩

/-- The value of a closed expression at compile time denotes its value at run time. -/
theorem eval_of_fold (ρ : String → IntValue) {e : IntExpr} (hat : e.At t id) (hrange : e.FoldsInRange)
    (h : e.fold = .ok (some c)) : ∃ x, e.eval ρ = some x ∧ c.Denotes x := by
  induction e generalizing id c with
  | int v =>
    cases h
    refine ⟨_, rfl, ?_, ?_, rfl⟩
    · rcases Scalar.forLiteral_cases v with hk | hk | hk <;> rw [hk] <;> rfl
    · rcases Scalar.forLiteral_cases v with hk | hk | hk <;> rw [hk] <;> decide
  | bool b =>
    cases h
    exact ⟨_, rfl, ConstValue.denotes_bool b⟩
  | char code =>
    cases h
    exact ⟨_, rfl, rfl, by decide, rfl⟩
  | var name => cases h
  | neg e ih =>
    obtain ⟨operand, -, hat⟩ := hat
    obtain ⟨a, hfold, hneg⟩ := fold_of_map h
    obtain ⟨x, hx, ha⟩ := ih hat hrange hfold
    refine ⟨x.neg, by rw [eval, hx]; rfl, ?_⟩
    cases a with
    | int v k =>
      obtain ⟨hk, hb, rfl⟩ := ha
      cases hneg
      exact ConstValue.denotes_wrapped hk hb (k.reduce_neg_reduce v).symm
    | float _ _ | str _ | null => exact ha.elim
    | bool _ => cases hneg
  | bitNot e ih =>
    obtain ⟨operand, -, hat⟩ := hat
    obtain ⟨a, hfold, hnot⟩ := fold_of_map h
    obtain ⟨x, hx, ha⟩ := ih hat hrange hfold
    refine ⟨x.bitNot, by rw [eval, hx]; rfl, ?_⟩
    cases a with
    | int v k =>
      obtain ⟨hk, hb, rfl⟩ := ha
      cases hnot
      exact ConstValue.denotes_wrapped hk hb (k.reduce_sub_reduce (-1) v).symm
    | float _ _ | str _ | null => exact ha.elim
    | bool _ => cases hnot
  | not e ih =>
    obtain ⟨operand, -, hat⟩ := hat
    obtain ⟨a, hfold, hnot⟩ := fold_of_map h
    obtain ⟨x, hx, ha⟩ := ih hat hrange.1 hfold
    have htruth : (a.truth?).map (fun b => ConstValue.bool !b) = some c := by
      cases a <;> exact hnot
    rw [ha.truth?_eq (hrange.2 a hfold)] at htruth
    cases htruth
    exact ⟨_, by rw [eval, hx]; rfl, ConstValue.denotes_bool _⟩
  | binary op l r ihl ihr =>
    obtain ⟨-, lhs, rhs, -, hatl, hatr⟩ := hat
    obtain ⟨hrangel, hranger, hmeet⟩ := hrange
    obtain ⟨a, hl, h⟩ := fold_of_binary h
    obtain ⟨x, hx, ha⟩ := ihl hatl hrangel hl
    obtain ⟨hain, hmeet⟩ := hmeet a hl
    simp only [eval, hx, Option.bind_eq_bind, Option.bind_some]
    cases hlogical : op.isLogical with
    | true =>
      simp only [hlogical, if_true] at h hmeet ⊢
      refine foldLogical_denotes ha hain ?_ h
      intro b hb
      exact ⟨hmeet b hb, ihr hatr hranger hb⟩
    | false =>
      simp only [hlogical, Bool.false_eq_true, if_false] at h hmeet ⊢
      obtain ⟨b, hr, h⟩ := h
      obtain ⟨y, hy, hb⟩ := ihr hatr hranger hr
      rw [hy, Option.bind_some]
      exact ConstValue.foldBinary_denotes ha hb (hmeet b hr) h
  | cast k e ih =>
    obtain ⟨hk, operand, -, hat⟩ := hat
    obtain ⟨a, hfold, hconvert⟩ := fold_of_map h
    obtain ⟨x, hx, ha⟩ := ih hat hrange.1 hfold
    refine ⟨x.convert k, by rw [eval, hx]; rfl, ?_⟩
    exact ha.convert hk (hrange.2 a hfold) hconvert

end IntExpr
end UnitCompiler
