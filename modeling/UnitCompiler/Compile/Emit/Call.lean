import UnitCompiler.Compile.Emit.Place
import UnitCompiler.Compile.Passing

/-!
# Calls

Arguments are evaluated from left to right and adapted to their parameters.  An aggregate is passed by
its address to a pointer parameter and read through a pointer for an aggregate parameter.
-/

namespace UnitCompiler

/-- An evaluated argument, with its place if it has one. -/
structure Argument where
  value : Rvalue
  place : Option Place := none

def argumentTypes (args : List Argument) : List SourceType := args.map (·.value.type.strip)

/-- The method argument `this`. -/
def thisArgument (owner : String) (address : Operand) : Argument :=
  { value := ⟨.pointer (SourceType.named owner), address⟩ }

namespace CompileM

def emitArgument (id : NodeId) : CompileM Argument := do
  let location ← locate id
  let arg : Argument ←
    if ← isPlaceExpr id then do
      let place ← perform (.emitPlace id)
      pure { value := ← loadPlace place location, place := some place }
    else
      pure { value := ← perform (.emitExpr id) }
  if arg.value.type.isVoid then bail location .voidArgument
  return arg

def emitArguments (ids : List NodeId) : CompileM (List Argument) := ids.mapM emitArgument

def adaptArgument (arg : Argument) (param : SourceType) (location : Location) :
    CompileM Rvalue := do
  let source := arg.value.type.strip
  let target := param.strip
  let byAddress := source.isAggregate && (target matches .pointer _) &&
    target.element?.any (·.sameAs source)
  let byValue := target.isAggregate && (source matches .pointer _) &&
    source.element?.any (·.sameAs target)
  if byAddress then
    match arg.place with
    | some place => return ⟨target, place.address⟩
    | none => return ⟨target, (← materialize arg.value location).address⟩
  else if byValue then
    let machine ← lower target location
    return ⟨target, ← build (FunctionBuilder.load arg.value.operand machine)⟩
  else coerce arg.value target location

def checkArity (name : String) (expected got : Nat) (isVariadic : Bool) (location : Location) :
    CompileM Unit :=
  if got < expected || (expected < got && !isVariadic) then
    bail location (.argumentCount name expected got)
  else pure ()

/-- The operands of a call: arguments with a parameter are adapted and brought into the form in which
they travel, further ones are passed as they are. -/
def passArguments (location : Location) :
    List Argument → List (SourceType × PassingClass) → CompileM (List Operand)
  | [], _ => return []
  | arg :: args, [] => return arg.value.operand :: (← passArguments location args [])
  | arg :: args, (param, cls) :: params => do
    let value ← adaptArgument arg param location
    let operand ←
      match cls with
      | .direct => pure value.operand
      | cls => passArgument value.operand param cls location
    return operand :: (← passArguments location args params)

/-- The value of a call, from the type of the function's result. -/
def callResult (ret : SourceType) (result : Operand) : Rvalue :=
  if ret.isVoid then .void else ⟨ret.strip, result⟩

/-- Calls the function with the key. -/
def callFunction (key : String) (args : List Argument) (location : Location) : CompileM Rvalue := do
  match (← get).symbols.functions.get? key with
  | none => bail location (.unknownFunction key)
  | some f =>
    checkArity f.name f.params.length args.length f.isVariadic location
    let classes ← classifyParams f location
    let operands ← passArguments location args (f.params.zip classes)
    let ret ← if f.returnsZero then pure .i32 else lower f.ret location
    let call := FunctionBuilder.call (.function f.linkName) operands f.convention ret
    return callResult f.ret (← build call)

/-- The function type that a value can be called as. -/
def callableType (location : Location) (type : SourceType) : CompileM FunctionType :=
  match type.strip with
  | .function ret params isVariadic => pure ⟨ret, params, isVariadic⟩
  | .pointer inner =>
    match inner.strip with
    | .function ret params isVariadic => pure ⟨ret, params, isVariadic⟩
    | other => bail location (.notCallable (SourceType.pointer other).canonical)
  | other => bail location (.notCallable other.canonical)

/-- Calls through a function value. -/
def callIndirect (target : Rvalue) (args : List Argument) (location : Location) :
    CompileM Rvalue := do
  let f ← callableType location target.type
  checkArity "function pointer" f.params.length args.length f.variadic location
  let operands ← passArguments location args (f.params.map (·, .direct))
  let ret ← lower f.ret location
  return callResult f.ret (← build (FunctionBuilder.call target.operand operands .c ret))

/-- Calls an operator of an aggregate, or the negation of its counterpart. -/
def callOperator (owner : String) (tag : OperatorTag) (operands : List Rvalue)
    (location : Location) : CompileM Rvalue := do
  let types := operands.map (·.type.strip)
  let target ← orBail location ((← get).symbols.operator owner tag types)
  let result ← callFunction target.key (operands.map ({ value := · })) location
  if !target.isNegated then return result
  if result.type.scalar? ≠ some .bool then
    let positive := (tag.negated?.map (·.spelling)).getD ""
    bail location (.standInNotBool owner positive tag)
  return ⟨.bool, ← build (FunctionBuilder.push (.not result.operand) (some .i1))⟩

/-- An element of an aggregate by its `[]` operator, or by `[]=` when a value is stored. -/
def callIndex (base : Place) (index : NodeId) (stored : Option Rvalue) (location : Location) :
    CompileM Rvalue := do
  let owner := base.type.canonical
  let object ← loadPlace base location
  let position ← perform (.emitExpr index)
  match stored with
  | some value => callOperator owner .indexAssign [object, position, value] location
  | none => callOperator owner .index [object, position] location

end CompileM
end UnitCompiler
