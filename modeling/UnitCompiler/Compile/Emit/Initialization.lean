import UnitCompiler.Compile.Emit.Call

/-!
# Default values and construction

The default value of a type is zero, with the declared defaults of fields at every level.
-/

namespace UnitCompiler
namespace CompileM

/-- The fields of an aggregate type; another type has none. -/
def fieldsOf (type : SourceType) (location : Location) : CompileM (List FieldSymbol) := do
  match type.aggregateName? with
  | none => return []
  | some name =>
    ensureChecked name location
    return (((← get).symbols.aggregates.get? name).map (·.fields)).getD []

/-- Whether one of the fields has a default at some level. -/
def anyDefault (location : Location) : List FieldSymbol → CompileM Bool
  | [] => return false
  | field :: rest => do
    if field.default.isSome then return true
    if ← perform (.needsDefaults field.type location) then return true
    anyDefault location rest

/-- Whether the default value of a type is more than zero. -/
def needsDefaults (type : SourceType) (location : Location) : CompileM Bool := do
  anyDefault location (← fieldsOf type location)

/-- Stores the default of a field into the aggregate at `slot`. -/
def applyDefault (slot : Operand) (location : Location) (field : FieldSymbol) : CompileM Unit := do
  match field.default with
  | some node =>
    let place ← fieldPlace slot field location
    let value ← coerce (← perform (.emitExpr node)) field.type location
    build (FunctionBuilder.store value.operand place.address)
  | none =>
    if ← perform (.needsDefaults field.type location) then
      let place ← fieldPlace slot field location
      perform (.applyDefaults field.type place.address 0 location)

/-- Stores the defaults of the fields behind the first `skipped` ones; `slot` holds zeros there. -/
def applyDefaults (type : SourceType) (slot : Operand) (skipped : Nat) (location : Location) :
    CompileM Unit := do
  let fields ← fieldsOf type location
  (fields.drop skipped).forM (applyDefault slot location)

/-- A new slot with the default value of a type. -/
def defaultSlot (type : SourceType) (location : Location) : CompileM Operand := do
  let machine ← lower type location
  let slot ← build do
    let slot ← FunctionBuilder.alloca machine
    FunctionBuilder.store (.constant (.zero machine)) slot
    return slot
  perform (.applyDefaults type slot 0 location)
  return slot

/-- The default value of an aggregate, written as a call without arguments. -/
def constructDefault (name : String) (argCount : Nat) (location : Location) : CompileM Rvalue := do
  if 0 < argCount then bail location (.noConstructor name argCount)
  let type := SourceType.named name
  let machine ← lower type location
  let slot ← defaultSlot type location
  return ⟨type, ← build (FunctionBuilder.load slot machine)⟩

/-- Builds a generic aggregate by its constructors, or its default value when it has none. -/
def construct (name : String) (args : List NodeId) (location : Location) : CompileM Rvalue := do
  match (← get).symbols.overloads.get? name with
  | none => constructDefault name args.length location
  | some keys =>
    let args ← emitArguments args
    let key ← orBail location ((← get).symbols.pickOverload name keys (argumentTypes args))
    callFunction key args location

/-- The aggregate that a call builds, when no function has the name. -/
def constructedAggregate (name : String) (location : Location) : CompileM (Option String) := do
  let c ← get
  if (c.overloads? name).isSome then return none
  match (c.candidates name).find? c.symbols.knowsAggregate with
  | none => return none
  | some found =>
    ensureChecked found location
    return some found

end CompileM
end UnitCompiler
