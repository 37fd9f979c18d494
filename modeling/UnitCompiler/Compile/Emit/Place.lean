import UnitCompiler.Compile.Emit.Conversion
import UnitCompiler.Compile.Resolution

/-!
# Places

Addresses of variables, members and elements, and the values read from them.
-/

namespace UnitCompiler
namespace CompileM

/-- Reads a place.  An array becomes a pointer to its first element. -/
def loadPlace (place : Place) (location : Location) : CompileM Rvalue := do
  match place.type.strip with
  | .array element _ =>
    let machine ← lower element location
    let first := FunctionBuilder.elementPtr place.address [constI32 0, constI32 0] machine
    return ⟨.pointer element, ← build first⟩
  | type =>
    let machine ← lower place.type location
    return ⟨type, ← build (FunctionBuilder.load place.address machine)⟩

/-- Puts a value into a new slot. -/
def materialize (value : Rvalue) (location : Location) : CompileM Place := do
  let machine ← lower value.type location
  let slot ← build do
    let slot ← FunctionBuilder.alloca machine
    FunctionBuilder.store value.operand slot
    return slot
  return ⟨value.type, slot⟩

/-- The place of a variable, which counts as used from here on.  A constant global is read as
constant. -/
def variablePlace (name : String) (location : Location) : CompileM Place := do
  let f ← functionState
  match f.scope.lookup name with
  | some v =>
    setFunctionState { f with scope := f.scope.markUsed name }
    return ⟨v.type, v.slot⟩
  | none =>
    match (← get).global? name with
    | none => bail location (.unknownVariable name)
    | some global =>
      let machine ← lower global.type location
      let type := if global.isConst && !global.type.isConst then .const global.type else global.type
      return ⟨type, .global global.linkName machine⟩

/-- Whether a node designates a place. -/
def isPlaceExpr (id : NodeId) : CompileM Bool := do
  match ← kindOf id with
  | .ident name [] => return (← get).isVariable name
  | .get .. | .index .. => return true
  | .unary op _ => return op == .deref
  | _ => return false

/-- The place of a node; a mere value is put into a new slot. -/
def placeOrSlot (id : NodeId) : CompileM Place := do
  if ← isPlaceExpr id then perform (.emitPlace id)
  else
    let location ← locate id
    materialize (← perform (.emitExpr id)) location

/-- The aggregate that a member access goes to, and its address. -/
def memberBase (base : NodeId) (location : Location) : CompileM (String × Operand) := do
  let place ← placeOrSlot base
  match place.type.strip with
  | .aggregate name args => return ((SourceType.aggregate name args).canonical, place.address)
  | .pointer inner =>
    if !inner.isAggregate then bail location (.noMembers (SourceType.pointer inner).canonical)
    let machine ← lower place.type location
    return (inner.canonical, ← build (FunctionBuilder.load place.address machine))
  | other => bail location (.noMembers other.canonical)

def fieldPlace (address : Operand) (field : FieldSymbol) (location : Location) : CompileM Place := do
  let machine ← lower field.type location
  return ⟨field.type, ← build (FunctionBuilder.fieldPtr address field.index machine)⟩

/-- The place of a member, which must be a field. -/
def memberPlace (base : NodeId) (name : String) (location : Location) : CompileM Place := do
  let (owner, address) ← memberBase base location
  let symbols := (← get).symbols
  match symbols.field? owner name with
  | some field => fieldPlace address field location
  | none =>
    if (symbols.methodsOf owner name).isEmpty then bail location (.noMember name owner)
    else bail location (.methodNotCalled name owner)

/-- An element of the array or pointer stored at `base`. -/
def elementPlace (base : Place) (index : Rvalue) (location : Location) : CompileM Place := do
  if !index.type.isInteger then bail location (.indexNotInteger index.type.canonical)
  let index ← castTo index .long location
  match base.type.strip with
  | .array element _ =>
    let machine ← lower element location
    let indices := [constInt 0 .i64, index.operand]
    return ⟨element, ← build (FunctionBuilder.elementPtr base.address indices machine)⟩
  | .pointer element =>
    if element.isVoid then bail location (.cannotIndex (SourceType.pointer element).canonical)
    let pointer ← lower base.type location
    let machine ← lower element location
    let address ← build do
      let start ← FunctionBuilder.load base.address pointer
      FunctionBuilder.elementPtr start [index.operand] machine
    return ⟨element, address⟩
  | other => bail location (.cannotIndex other.canonical)

def indexPlace (base : Place) (index : NodeId) (location : Location) : CompileM Place := do
  elementPlace base (← perform (.emitExpr index)) location

/-- The place that a pointer leads to. -/
def derefPlace (pointer : Rvalue) (location : Location) : CompileM Place := do
  match pointer.type.strip with
  | .pointer inner =>
    if inner.isVoid then bail location (.cannotDereference (SourceType.pointer inner).canonical)
    return ⟨inner, pointer.operand⟩
  | other => bail location (.cannotDereference other.canonical)

end CompileM
end UnitCompiler
