import UnitCompiler.Compile.Problem
import UnitCompiler.Types.Basic

/-!
# Operators on compile-time values

Integers are computed in the kind of their operands, as they are at run time: results wrap around.
-/

namespace UnitCompiler
namespace ConstValue

attribute [local instance (high)] instPowNat

/-- An integer brought into the range of its kind. -/
def wrapped (kind : Scalar) (value : Int) : ConstValue := .int (kind.wrap (Word.wrapFull value)) kind

def foldUnary : UnaryOp → ConstValue → Option ConstValue
  | .neg, .int value kind => some (wrapped kind (-value))
  | .neg, .float value kind => some (.float value.neg kind)
  | .not, value => value.truth?.map fun b => .bool !b
  | .bitNot, .int value kind => some (wrapped kind (-1 - value))
  | _, _ => none

/-- The kind two operands that are read as integers are computed in. -/
def integerKind : ConstValue → ConstValue → Scalar
  | .int _ a, .int _ b => a.wider b
  | .int _ kind, _ | _, .int _ kind => kind
  | _, _ => .int

/-- The kind two operands that are read as floats are computed in: of two equally wide ones the
second. -/
def floatKind : ConstValue → ConstValue → Scalar
  | .float _ a, .float _ b => if b.bits < a.bits then a else b
  | .float _ kind, _ | _, .float _ kind => kind
  | _, _ => .double

/-- Applies an operation to the bits of two integers. -/
def onBits (op : Nat → Nat → Nat) (a b : Int) : Int :=
  Word.toInt Word.maxBits (op (Word.ofInt Word.maxBits a) (Word.ofInt Word.maxBits b))

/-- The truth of a comparison, from how its operands compare; operands that do not compare differ. -/
def compareBy (op : BinaryOp) (order : Option Ordering) : Option Bool :=
  match op with
  | .eq => some (order == some .eq)
  | .ne => some (order != some .eq)
  | .lt => some (order == some .lt)
  | .gt => some (order == some .gt)
  | .le => some (order == some .lt || order == some .eq)
  | .ge => some (order == some .gt || order == some .eq)
  | _ => none

/-- An operator on two integers of a kind, whose right operand it admits. -/
def foldIntegers (op : BinaryOp) (kind : Scalar) (a b : Int) : Option ConstValue :=
  match op with
  | .add => some (wrapped kind (a + b))
  | .sub => some (wrapped kind (a - b))
  | .mul => some (wrapped kind (a * b))
  | .div => some (wrapped kind (a.tdiv b))
  | .rem => some (wrapped kind (a.tmod b))
  | .bitAnd => some (wrapped kind (onBits (· &&& ·) a b))
  | .bitOr => some (wrapped kind (onBits (· ||| ·) a b))
  | .bitXor => some (wrapped kind (onBits (· ^^^ ·) a b))
  | .shl => some (wrapped kind (a * 2 ^ b.toNat))
  | .shr => some (wrapped kind (a / 2 ^ b.toNat))
  | op => (compareBy op (some (compare a b))).map .bool

def foldFloats (op : BinaryOp) (kind : Scalar) (a b : Double) : Option ConstValue :=
  match op with
  | .add => some (.float (a.add b) kind)
  | .sub => some (.float (a.sub b) kind)
  | .mul => some (.float (a.mul b) kind)
  | .div => some (.float (a.div b) kind)
  | op => (compareBy op (a.compare? b)).map .bool

def foldStrings (op : BinaryOp) (a b : String) : Option ConstValue :=
  match op with
  | .eq => some (.bool (a == b))
  | .ne => some (.bool (a != b))
  | .add => some (.str (a ++ b))
  | _ => none

/-- Why an operator does not admit its right operand. -/
def operandProblem? (op : BinaryOp) (kind : Scalar) (b : Int) : Option Problem :=
  match op with
  | .div | .rem => if b = 0 then some .constantDivisionByZero else none
  | .shl | .shr => if 0 ≤ b ∧ b < kind.bits then none else some (.shiftOutOfRange b kind)
  | _ => none

/-- A binary operator other than an assignment or a logical one; nothing when it has no value at
compile time. -/
def foldBinary (op : BinaryOp) (left right : ConstValue) : Except Problem (Option ConstValue) :=
  match left, right with
  | .str a, .str b => .ok (foldStrings op a b)
  | .float .., _ | _, .float .. =>
    match left.toDouble?, right.toDouble? with
    | some a, some b => .ok (foldFloats op (floatKind left right) a b)
    | _, _ => .ok none
  | _, _ =>
    match left.toInt?, right.toInt? with
    | some a, some b =>
      let kind := integerKind left right
      match operandProblem? op kind b with
      | some problem => .error problem
      | none => .ok (foldIntegers op kind (kind.wrap a) (kind.wrap b))
    | _, _ => .ok none

/-- The value converted to a type; nothing when the type is no scalar or the value is no number. -/
def convert (value : ConstValue) (type : SourceType) : Option ConstValue := do
  let kind ← type.scalar?
  if kind = .bool then return .bool (← value.truth?)
  else if kind.isFloat then return .float (← value.toDouble?) kind
  else
    match value with
    | .float value _ => return .int (kind.wrap value.toInt) kind
    | other => return .int (kind.wrap (← other.toInt?)) kind

end ConstValue
end UnitCompiler
