import UnitCompiler.Compile.Emit.Conversion

/-!
# Arithmetic

Binary operations on numbers and pointers.  Both operands convert to their common kind first, and the
kind selects the signed or the unsigned instruction.
-/

namespace UnitCompiler

/-- The instruction of a comparison. -/
def BinaryOp.compareOp? (op : BinaryOp) (isUnsigned : Bool) : Option CompareOp :=
  match op with
  | .eq => some .eq
  | .ne => some .ne
  | .lt => some (if isUnsigned then .ult else .lt)
  | .le => some (if isUnsigned then .ule else .le)
  | .gt => some (if isUnsigned then .ugt else .gt)
  | .ge => some (if isUnsigned then .uge else .ge)
  | _ => none

/-- The instruction of an operation on numbers of a kind. -/
def BinaryOp.arithOp? (op : BinaryOp) (kind : Scalar) : Option ArithOp :=
  match op with
  | .add => some .add
  | .sub => some .sub
  | .mul => some .mul
  | .div => some (if kind.isUnsigned then .udiv else .div)
  | op =>
    if kind.isFloat then none
    else
      match op with
      | .rem => some (if kind.isUnsigned then .urem else .rem)
      | .bitAnd => some .and
      | .bitOr => some .or
      | .bitXor => some .xor
      | .shl => some .shl
      | .shr => some (if kind.isUnsigned then .lshr else .shr)
      | _ => none

namespace CompileM

def emitCompare (op : BinaryOp) (a b : Operand) (isUnsigned : Bool) : CompileM Rvalue := do
  match op.compareOp? isUnsigned with
  | some op => return ⟨.bool, ← build (FunctionBuilder.push (.compare op a b) (some .i1))⟩
  | none => fail (.notComparison op)

/-- Moves a pointer by a number of elements. -/
def offsetPointer (op : BinaryOp) (pointer : Rvalue) (element : SourceType) (offset : Rvalue)
    (location : Location) : CompileM Rvalue := do
  let offset ← castTo offset .long location
  let machine ← lower element location
  let moved ← build do
    let index ←
      if op = .sub then FunctionBuilder.push (.neg offset.operand) (some .i64)
      else pure offset.operand
    FunctionBuilder.elementPtr pointer.operand [index] machine
  return ⟨pointer.type.strip, moved⟩

/-- Compares two pointers by their addresses. -/
def comparePointers (op : BinaryOp) (left right : Rvalue) : CompileM Rvalue := do
  let address := (← get).addressType
  let (a, b) ← build do
    let a ← FunctionBuilder.push (.ptrToInt left.operand) (some address)
    let b ← FunctionBuilder.push (.ptrToInt right.operand) (some address)
    return (a, b)
  emitCompare op a b true

/-- A binary operation on two numbers. -/
def emitNumeric (op : BinaryOp) (left right : Rvalue) (kind : Scalar) (location : Location) :
    CompileM Rvalue := do
  let a ← castTo left (.scalar kind) location
  let b ← castTo right (.scalar kind) location
  if op.isComparison then emitCompare op a.operand b.operand kind.isUnsigned
  else
    match op.arithOp? kind with
    | some op =>
      let operation := Operation.arith op a.operand b.operand
      return ⟨.scalar kind, ← build (FunctionBuilder.push operation (some kind.machineType))⟩
    | none =>
      bail location
        (.invalidOperands op left.type.strip.canonical right.type.strip.canonical)

/-- A binary operation on two values that are no aggregates. -/
def emitArith (op : BinaryOp) (left right : Rvalue) (location : Location) : CompileM Rvalue := do
  let lt := left.type.strip
  let rt := right.type.strip
  let offset? :=
    match lt with
    | .pointer element =>
      if rt.isInteger && (op = .add || op = .sub) && !element.isVoid then some element else none
    | _ => none
  match offset?, lt.scalar?, rt.scalar? with
  | some element, _, _ => offsetPointer op left element right location
  | none, some a, some b => emitNumeric op left right (a.common b) location
  | none, _, _ =>
    if op.isComparison && lt.isPointerLike && rt.isPointerLike then comparePointers op left right
    else bail location (.invalidOperands op lt.canonical rt.canonical)

end CompileM
end UnitCompiler
