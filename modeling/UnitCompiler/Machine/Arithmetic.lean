import UnitCompiler.Machine.Fault

/-!
# Arithmetic of the machine

Integers are computed in the width of the left operand and reduced to it.
-/

namespace UnitCompiler
namespace Machine

/-- Rounds to single precision where the type asks for it. -/
def roundTo (value : Double) : IrType → Double
  | .f32 => value.toSingle
  | _ => value

/-- Integer arithmetic on words, the left one of width `bits`. -/
def integerArith (op : ArithOp) (bits x y : Nat) : Except Fault Nat :=
  let sx := Word.toInt bits x
  let sy := Word.toInt bits y
  let shift := y % max bits 1
  match op with
  | .add => .ok (Word.mask bits (x + y))
  | .sub => .ok (Word.ofInt bits (x - y))
  | .mul => .ok (Word.mask bits (x * y))
  | .div =>
    if y = 0 then .error .divisionByZero
    else if sy = 0 then .error .divisorVanishes
    else .ok (Word.ofInt bits (sx.tdiv sy))
  | .rem =>
    if y = 0 then .error .divisionByZero
    else if sy = 0 then .error .divisorVanishes
    else .ok (Word.ofInt bits (sx.tmod sy))
  | .udiv => if y = 0 then .error .divisionByZero else .ok (Word.mask bits (x / y))
  | .urem => if y = 0 then .error .divisionByZero else .ok (Word.mask bits (x % y))
  | .and => .ok (Word.mask bits (x &&& y))
  | .or => .ok (Word.mask bits (x ||| y))
  | .xor => .ok (Word.mask bits (x ^^^ y))
  | .shl => .ok (Word.mask bits (x <<< shift))
  | .shr => .ok (Word.ofInt bits (sx >>> shift))
  | .lshr => .ok (Word.mask bits (x >>> shift))

/-- Floating-point arithmetic; other operations have no meaning on floats. -/
def floatArith? (op : ArithOp) (x y : Double) : Option Double :=
  match op with
  | .add => some (x.add y)
  | .sub => some (x.sub y)
  | .mul => some (x.mul y)
  | .div => some (x.div y)
  | .rem => some (x.rem y)
  | _ => none

/-- An arithmetic instruction on two values; the operands serve the messages. -/
def arith (op : ArithOp) (lhs rhs : Operand) (a b : Value) (type : IrType) : Except Fault Value :=
  match a, b with
  | .float x, .float y =>
    match floatArith? op x y with
    | some z => .ok (.float (roundTo z type))
    | none => .error (.floatOperation op lhs rhs)
  | .int x bits, .int y _ => (integerArith op bits x y).map fun word => .int word bits
  | a, b => .error (.mixedOperands op lhs rhs a b)

def isUnsignedCompare : CompareOp → Bool
  | .ult | .ule | .ugt | .uge => true
  | _ => false

def holds (op : CompareOp) (o : Ordering) : Bool :=
  match op with
  | .eq => o == .eq
  | .ne => o != .eq
  | .lt | .ult => o == .lt
  | .le | .ule => o != .gt
  | .gt | .ugt => o == .gt
  | .ge | .uge => o != .lt

/-- A comparison of two values.  What is not a number differs from everything. -/
def compareValues (op : CompareOp) (a b : Value) : Except Fault Value :=
  match a, b with
  | .float x, .float y =>
    match x.compare? y with
    | some o => .ok (.ofBool (holds op o))
    | none => .ok (.ofBool (op == .ne))
  | .int x bits, .int y _ =>
    if isUnsignedCompare op then .ok (.ofBool (holds op (compare x y)))
    else .ok (.ofBool (holds op (compare (Word.toInt bits x) (Word.toInt bits y))))
  | .ptr x, .ptr y => .ok (.ofBool (holds op (compare x y)))
  | a, b => .error (.cannotCompare a b)

mutual

/-- The value of a constant. -/
def constantValue : IrConstant → Except Fault Value
  | .int value type => .ok (.ofInt value (type.intBits?.getD 64))
  | .uint value type =>
    let bits := type.intBits?.getD 64
    .ok (.int (Word.mask bits value) bits)
  | .float value type =>
    match type with
    | .f32 => .ok (.float value.toSingle)
    | .f64 => .ok (.float value)
    | other => .error (.unsupportedConstant other)
  | .bool value => .ok (.ofBool value)
  | .string value =>
    let bytes := value.toUTF8.toList.map fun b => Value.int b.toNat 8
    .ok (.aggregate (bytes ++ [.int 0 8]))
  | .array items _ | .struct items _ => (constantValues items).map .aggregate
  | .null _ => .ok (.ptr 0)
  | .undef type | .zero type => .ok (.zero type)

def constantValues : List IrConstant → Except Fault (List Value)
  | [] => .ok []
  | item :: rest => do
    let value ← constantValue item
    return value :: (← constantValues rest)

end

/-- The item at a path inside a value. -/
def extractAt (value : Value) : List Nat → Except Fault Value
  | [] => .ok value
  | index :: path =>
    match value with
    | .aggregate items =>
      match items[index]? with
      | some item => extractAt item path
      | none => .error (.cannotExtract index value)
    | _ => .error (.cannotExtract index value)

/-- The value with the item at a path replaced. -/
def insertAt (value element : Value) : List Nat → Except Fault Value
  | [] => .ok element
  | index :: path =>
    match value with
    | .aggregate items =>
      match items[index]? with
      | some item => do
        let item ← insertAt item element path
        return .aggregate (items.set index item)
      | none => .error (.insertRange index)
    | other => .error (.cannotInsert other)

end Machine
end UnitCompiler
