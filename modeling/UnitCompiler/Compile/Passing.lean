import UnitCompiler.Compile.Lowering
import UnitCompiler.Compile.TypeResolution

/-!
# Passing of aggregates

How a function with the convention of C on 64-bit machines receives its aggregate parameters: by shape,
in registers or through memory.
-/

namespace UnitCompiler

/-- How a parameter travels. -/
inductive PassingClass where
  /-- Unchanged. -/
  | direct
  /-- As its only field. -/
  | single (type : SourceType)
  /-- As integer fields packed back to back into one register, the first in the low bits. -/
  | merged (kind : Scalar)
  /-- As a vector of floats of one kind. -/
  | vector (kind : Scalar) (lanes : Nat)
  /-- As the address of a copy that the caller owns. -/
  | indirect

namespace PassingClass

attribute [local instance (high)] Zero.ofOfNat0

/-- Aggregates of this size or more go through memory. -/
def indirectBits : Nat := 192

/-- The class of a few scalar fields. -/
def ofScalars (kinds : List Scalar) : PassingClass :=
  if kinds.all Scalar.isInteger then
    let packed := (kinds.map Scalar.bits).sum
    match Scalar.forBits? packed with
    | some kind => if packed ≤ 64 then .merged kind else .indirect
    | none => .indirect
  else
    match kinds with
    | [a, b] => if a.isFloat && a == b then .vector a 2 else .indirect
    | _ => .indirect

/-- The class of an aggregate with the given fields that is small enough for registers. -/
def ofFields (name : String) (fields : List SourceType) : Except Problem PassingClass :=
  match fields with
  | [] => .error (.unclassifiable name "no fields")
  | [field] => .ok (.single field)
  | fields =>
    if 4 < fields.length then .error (.unclassifiable name s!"{fields.length} fields")
    else if fields.all SourceType.isScalar then .ok (ofScalars (fields.filterMap SourceType.scalar?))
    else .error (.unclassifiable name "non-scalar fields")

/-- The machine type that a parameter travels as. -/
def machineType (s : SymbolTables) (type : SourceType) : PassingClass → Except Problem IrType
  | .direct => s.lower type
  | .single field => s.lower field
  | .merged kind => .ok kind.machineType
  | .vector kind lanes => .ok (.vector kind.machineType lanes)
  | .indirect => return .ptr (← s.lower type)

/-- The machine types of packed fields with their bit offsets in the register. -/
def packFrom : Nat → List SourceType → Except Problem (List (IrType × Nat))
  | _, [] => .ok []
  | offset, field :: rest =>
    match field.scalar? with
    | none => .error (.cannotMerge field.canonical)
    | some kind => return (kind.machineType, offset) :: (← packFrom (offset + kind.bits) rest)

/-- The packed fields of an aggregate. -/
def packedFields (s : SymbolTables) (type : SourceType) : Except Problem (List (IrType × Nat)) :=
  match type.aggregateName? with
  | none => .error (.notAggregate type.canonical)
  | some name =>
    match s.fieldTypes? name with
    | none => .error (.unknownAggregate name)
    | some fields => packFrom 0 fields

/-- The packed fields where the class needs them. -/
def packed (s : SymbolTables) (type : SourceType) :
    PassingClass → Except Problem (List (IrType × Nat))
  | .merged _ => packedFields s type
  | _ => .ok []

/-- Rebuilds a parameter in memory at the entry of its function; gives the address. -/
def receive (incoming : Operand) (struct register : IrType) (packed : List (IrType × Nat)) :
    PassingClass → BuildM Operand
  | .direct => do
    let slot ← FunctionBuilder.alloca struct
    FunctionBuilder.store incoming slot
    return slot
  | .single _ => do
    let slot ← FunctionBuilder.alloca struct
    let field ← FunctionBuilder.fieldPtr slot 0 register
    FunctionBuilder.store incoming field
    return slot
  | .merged _ => do
    let slot ← FunctionBuilder.alloca struct
    packed.zipIdx.forM fun ((type, offset), index) => do
      let shift := Operation.arith .lshr incoming (constInt offset register)
      let shifted ← FunctionBuilder.push shift (some register)
      let value ← FunctionBuilder.convert .trunc shifted type
      let field ← FunctionBuilder.fieldPtr slot index type
      FunctionBuilder.store value field
    return slot
  | .vector .. => do
    let temp ← FunctionBuilder.alloca register
    FunctionBuilder.store incoming temp
    FunctionBuilder.bitcast temp (.ptr struct)
  | .indirect => return incoming

/-- Brings an aggregate argument into the form in which it travels. -/
def send (value : Operand) (struct register : IrType) (packed : List (IrType × Nat)) :
    PassingClass → BuildM Operand
  | .direct => return value
  | .single _ => FunctionBuilder.push (.extract value [0]) (some register)
  | .merged _ =>
    packed.zipIdx.foldlM (fun merged ((type, offset), index) => do
      let field ← FunctionBuilder.push (.extract value [index]) (some type)
      let widened ← FunctionBuilder.convert .zext field register
      let shift := Operation.arith .shl widened (constInt offset register)
      let shifted ← FunctionBuilder.push shift (some register)
      FunctionBuilder.push (.arith .or merged shifted) (some register)) (constInt 0 register)
  | .vector .. => do
    let temp ← FunctionBuilder.alloca register
    FunctionBuilder.store (.constant (.zero register)) temp
    let view ← FunctionBuilder.bitcast temp (.ptr struct)
    FunctionBuilder.store value view
    FunctionBuilder.load temp register
  | .indirect => do
    let copy ← FunctionBuilder.alloca struct
    FunctionBuilder.store value copy
    return copy

end PassingClass

namespace CompileM

/-- The class of a parameter.  Shapes outside the rules are refused. -/
def classify (type : SourceType) (location : Location) : CompileM PassingClass := do
  match type.aggregateName? with
  | none => return .direct
  | some name =>
    perform (.complete type location)
    let c ← get
    match c.symbols.fieldTypes? name with
    | none => bail location (.unknownAggregate name)
    | some fields =>
      match c.sizeOf? type with
      | none => bail location (.sizeUnknown name)
      | some bytes =>
        if PassingClass.indirectBits ≤ bytes * 8 then return .indirect
        orBail location (PassingClass.ofFields name fields)

/-- The classes of a function's parameters; only the convention of C sorts them by shape. -/
def classifyParams (f : FunctionSymbol) (location : Location) : CompileM (List PassingClass) :=
  f.params.mapM fun type =>
    if f.convention = .sysV then classify type location else pure .direct

def passingType (type : SourceType) (cls : PassingClass) (location : Location) :
    CompileM IrType := do
  orBail location (cls.machineType (← get).symbols type)

/-- The address of parameter `index` of the function under emission. -/
def bindParam (index : Nat) (type : SourceType) (cls : PassingClass) (location : Location) :
    CompileM Operand := do
  let struct ← lower type location
  let register ← passingType type cls location
  let packed ← orBail location (cls.packed (← get).symbols type)
  build (cls.receive (.argument index) struct register packed)

/-- An aggregate argument in the form in which it travels. -/
def passArgument (value : Operand) (type : SourceType) (cls : PassingClass) (location : Location) :
    CompileM Operand := do
  let struct ← lower type location
  let register ← passingType type cls location
  let packed ← orBail location (cls.packed (← get).symbols type)
  build (cls.send value struct register packed)

end CompileM
end UnitCompiler
