import UnitCompiler.Compile.Lowering

/-!
# Conversion of values

Explicit casts, and the conversions that need no cast: between numbers, to and from pointers to
nothing, and between a function and a pointer to a function of its type.
-/

namespace UnitCompiler

/-- Pointers and functions, which compare and convert by their addresses. -/
def SourceType.isPointerLike (type : SourceType) : Bool := type.isPointer || type.isFunction

def Conversion.op? : Conversion → Option ConvertOp
  | .trunc => some .trunc
  | .zeroExtend => some .zext
  | .signExtend => some .sext
  | .floatTrunc => some .fptrunc
  | .floatExtend => some .fpext
  | .intToFloat => some .sitofp
  | .floatToInt => some .fptosi
  | .bitcast => some .bitcast
  | .noop | .pointerToInt | .intToPointer | .reinterpret => none

/-- The integer type of addresses. -/
def Context.addressType (c : Context) : IrType :=
  (IrType.ofBits? (c.layout.pointerBytes * 8)).getD .i64

/-- Whether a value of one type is taken for a value of another without a number changing. -/
def implicitPointer (source target : SourceType) : Bool :=
  match source, target with
  | .pointer a, .pointer b => a.isVoid || b.isVoid
  | .function ret params isVariadic, .pointer p | .pointer p, .function ret params isVariadic =>
    (SourceType.function ret params isVariadic).sameAs p
  | _, _ => false

namespace CompileM

/-- Whether a number is nonzero or a pointer points anywhere. -/
def truthValue (value : Rvalue) (location : Location) : CompileM Operand := do
  let type := value.type.strip
  match type.scalar? with
  | some .bool => return value.operand
  | some kind =>
    let machine ← lower type location
    let zero :=
      if kind.isFloat then .constant (.float Double.zero machine) else constInt 0 machine
    build (FunctionBuilder.push (.compare .ne value.operand zero) (some .i1))
  | none =>
    if !type.isPointerLike then bail location (.notCondition type.canonical)
    let address := (← get).addressType
    build do
      let number ← FunctionBuilder.push (.ptrToInt value.operand) (some address)
      FunctionBuilder.push (.compare .ne number (constInt 0 address)) (some .i1)

/-- Reads the bytes of one aggregate as another, through a slot for the larger of the two; bytes that
the source does not cover are zero. -/
def reinterpret (value : Rvalue) (target : SourceType) (location : Location) : CompileM Rvalue := do
  let source ← lower value.type location
  let wanted ← lower target location
  let layout := (← get).layout
  let result ← build <|
    if layout.sizeOf wanted ≤ layout.sizeOf source then do
      let slot ← FunctionBuilder.alloca source
      FunctionBuilder.store value.operand slot
      let view ← FunctionBuilder.bitcast slot (.ptr wanted)
      FunctionBuilder.load view wanted
    else do
      let slot ← FunctionBuilder.alloca wanted
      FunctionBuilder.store (.constant (.zero wanted)) slot
      let view ← FunctionBuilder.bitcast slot (.ptr source)
      FunctionBuilder.store value.operand view
      FunctionBuilder.load slot wanted
  return ⟨target, result⟩

/-- Converts a value to a stripped type, where neither side needs the truth value. -/
def convertValue (value : Rvalue) (target : SourceType) (location : Location) :
    CompileM Rvalue := do
  let source := value.type.strip
  let conversion ← orBail location ((Conversion.between source target).mapError .conversion)
  let machine ← lower target location
  match conversion with
  | .noop => return ⟨target, value.operand⟩
  | .reinterpret => reinterpret ⟨source, value.operand⟩ target location
  | .pointerToInt =>
    return ⟨target, ← build (FunctionBuilder.push (.ptrToInt value.operand) (some machine))⟩
  | .intToPointer =>
    return ⟨target, ← build (FunctionBuilder.push (.intToPtr value.operand) (some machine))⟩
  | other =>
    match other.op? with
    | some op => return ⟨target, ← build (FunctionBuilder.convert op value.operand machine)⟩
    | none => return ⟨target, value.operand⟩

/-- Converts a value by an explicit cast.  To `bool` it is its truth; from `bool` to a float the way
is over `int`. -/
def castTo (value : Rvalue) (type : SourceType) (location : Location) : CompileM Rvalue := do
  let target := type.strip
  let isBool := value.type.scalar? == some .bool
  if target.scalar? == some .bool && !isBool then
    return ⟨target, ← truthValue value location⟩
  if isBool && target.isFloat then
    let widened ← build (FunctionBuilder.convert .zext value.operand .i32)
    convertValue ⟨.int, widened⟩ target location
  else convertValue value target location

/-- Converts a value without a cast. -/
def coerce (value : Rvalue) (type : SourceType) (location : Location) : CompileM Rvalue := do
  let target := type.strip
  let source := value.type.strip
  if source.sameAs target then return ⟨target, value.operand⟩
  if source.isScalar && target.isScalar then castTo value target location
  else if implicitPointer source target then
    let machine ← lower target location
    return ⟨target, ← build (FunctionBuilder.bitcast value.operand machine)⟩
  else bail location (.typeMismatch source.canonical target.canonical)

end CompileM
end UnitCompiler
