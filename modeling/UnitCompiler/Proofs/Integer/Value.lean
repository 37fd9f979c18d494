import UnitCompiler.Proofs.Integer.TwosComplement
import UnitCompiler.Tree.Operator

/-!
# Numbers with a kind

What integer expressions mean, apart from any machine: a number has a kind and an integer of that
kind's range.  Both operands of an operator convert to their common kind, and results are reduced to
the range of that kind.  Only a division by zero has no result.
-/

namespace UnitCompiler

/-- An integer together with the kind that it is a number of. -/
structure IntValue where
  kind : Scalar
  value : Int
deriving DecidableEq, Repr

namespace IntValue

/-- The number of a kind that is congruent to an integer. -/
def ofInt (k : Scalar) (v : Int) : IntValue := ⟨k, k.reduce v⟩

def ofBool (b : Bool) : IntValue := ⟨.bool, if b then 1 else 0⟩

/-- Whether the number counts as true. -/
def truth (x : IntValue) : Bool := x.value != 0

/-- The number in another kind; in `bool` it is its truth. -/
def convert (x : IntValue) (k : Scalar) : IntValue :=
  if k = .bool then ofBool x.truth else ofInt k x.value

def neg (x : IntValue) : IntValue := ofInt x.kind (-x.value)

def bitNot (x : IntValue) : IntValue := ofInt x.kind (-1 - x.value)

/-- An operation on the bits of two numbers of a kind. -/
def onBits (k : Scalar) (op : Nat → Nat → Nat) (a b : Int) : Int :=
  (op (Word.ofInt k.bits a) (Word.ofInt k.bits b) : Nat)

/-- The number of places that a shift by `b` moves: `b` modulo the width. -/
def shiftCount (k : Scalar) (b : Int) : Nat := (b % (k.bits : Int)).toNat

/-- Arithmetic of a kind before the result is reduced.  Division rounds toward zero and by zero has
no result; a shift to the right keeps the sign. -/
def arith? (op : BinaryOp) (k : Scalar) (a b : Int) : Option Int :=
  match op with
  | .add => some (a + b)
  | .sub => some (a - b)
  | .mul => some (a * b)
  | .div => if b = 0 then none else some (a.tdiv b)
  | .rem => if b = 0 then none else some (a.tmod b)
  | .bitAnd => some (onBits k (· &&& ·) a b)
  | .bitOr => some (onBits k (· ||| ·) a b)
  | .bitXor => some (onBits k (· ^^^ ·) a b)
  | .shl => some (a * 2 ^ shiftCount k b)
  | .shr => some (a / 2 ^ shiftCount k b)
  | _ => none

/-- The truth of a comparison of two integers. -/
def compares (op : BinaryOp) (a b : Int) : Bool :=
  match op with
  | .eq => a == b
  | .ne => a != b
  | .lt => a < b
  | .le => a ≤ b
  | .gt => b < a
  | .ge => b ≤ a
  | _ => false

/-- A binary operator other than an assignment or a logical one. -/
def binary? (op : BinaryOp) (x y : IntValue) : Option IntValue :=
  let k := x.kind.common y.kind
  let a := (x.convert k).value
  let b := (y.convert k).value
  if op.isComparison then some (ofBool (compares op a b)) else (arith? op k a b).map (ofInt k)

/-- A number whose integer lies in the range of its kind. -/
def WellFormed (x : IntValue) : Prop := x.kind.isInteger = true ∧ x.kind.InRange x.value

theorem wellFormed_ofInt {k : Scalar} (hk : k.isInteger = true) (v : Int) :
    (ofInt k v).WellFormed := ⟨hk, k.inRange_reduce v⟩

theorem wellFormed_ofBool (b : Bool) : (ofBool b).WellFormed := by
  cases b
  · exact ⟨rfl, by decide⟩
  · exact ⟨rfl, by decide⟩

@[simp] theorem kind_ofBool (b : Bool) : (ofBool b).kind = .bool := rfl

@[simp] theorem truth_ofBool (b : Bool) : (ofBool b).truth = b := by cases b <;> rfl

theorem bitNot_ofBool (b : Bool) : (ofBool b).bitNot = ofBool !b := by cases b <;> rfl

@[simp] theorem kind_ofInt (k : Scalar) (v : Int) : (ofInt k v).kind = k := rfl

@[simp] theorem kind_convert (x : IntValue) (k : Scalar) : (x.convert k).kind = k := by
  unfold convert
  split
  · next h => simp [h]
  · rfl

theorem wellFormed_convert (x : IntValue) {k : Scalar} (hk : k.isInteger = true) :
    (x.convert k).WellFormed := by
  unfold convert
  split
  · exact wellFormed_ofBool _
  · exact wellFormed_ofInt hk _

theorem wellFormed_bool_iff {v : Int} : Scalar.bool.InRange v ↔ v = 0 ∨ v = 1 := by
  unfold Scalar.InRange Scalar.reduce
  simp only [Scalar.isUnsigned, Scalar.bits, if_true]
  omega

/-- Converting a number to its own kind leaves it alone. -/
theorem convert_self {x : IntValue} (h : x.WellFormed) : x.convert x.kind = x := by
  obtain ⟨kind, value⟩ := x
  by_cases hb : kind = .bool
  · subst hb
    rcases wellFormed_bool_iff.mp h.2 with rfl | rfl
    · rfl
    · rfl
  · have hr : kind.reduce value = value := h.2
    simp [convert, hb, ofInt, hr]

end IntValue

namespace Scalar

theorem isInteger_common {a b : Scalar} (ha : a.isInteger = true) (hb : b.isInteger = true) :
    (a.common b).isInteger = true := by
  cases a <;> cases b <;> first | rfl | simp_all [isInteger, isFloat]

/-- Two kinds meet in `bool` only when both are `bool`. -/
theorem common_eq_bool_iff {a b : Scalar} : a.common b = .bool ↔ a = .bool ∧ b = .bool := by
  cases a <;> cases b <;> decide

end Scalar
end UnitCompiler
