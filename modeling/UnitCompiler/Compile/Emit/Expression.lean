import UnitCompiler.Compile.Emit.Arithmetic
import UnitCompiler.Compile.Emit.Initialization
import UnitCompiler.Compile.Evaluation
import UnitCompiler.Compile.Instances

/-!
# Expressions
-/

namespace UnitCompiler
namespace CompileM

/-- A private constant global with a text, as the address of its first character. -/
def emitString (text : String) : CompileM Rvalue := do
  let c ← get
  let name := s!".str.{c.stringCount}"
  let constant := IrConstant.string text
  let global : GlobalVariable :=
    { name
      type := constant.type
      initializer := some constant
      linkage := .unitPrivate
      isConst := true }
  set { c with stringCount := c.stringCount + 1, program := c.program.addGlobal global }
  let base := Operand.global name constant.type
  let address ← build (FunctionBuilder.elementPtr base [constI32 0, constI32 0] .i8)
  return ⟨.pointer (.scalar .char), address⟩

def emitConst (value : ConstValue) : CompileM Rvalue :=
  match value with
  | .int v kind => pure ⟨value.type, .constant (.int v kind.machineType)⟩
  | .float v kind => pure ⟨value.type, .constant (.float v kind.machineType)⟩
  | .bool b => pure ⟨value.type, .constant (.bool b)⟩
  | .null => pure ⟨value.type, .constant (.null (.ptr .i8))⟩
  | .str text => emitString text

/-- The function with the key as a value. -/
def functionValue (key : String) : CompileM Rvalue := do
  match (← get).symbols.functions.get? key with
  | some f => return ⟨f.type, .function f.linkName⟩
  | none => fail (.unknownFunction key)

/-- A name in an expression: a variable, a constant or the only function of the name. -/
def emitName (name : String) (location : Location) : CompileM Rvalue := do
  let c ← get
  if c.isVariable name then loadPlace (← variablePlace name location) location
  else
    match c.constant? name, c.overloads? name with
    | some value, _ => emitConst value
    | none, some [key] => functionValue key
    | none, some _ => bail location (.ambiguousReference name)
    | none, none => bail location (.unknownIdentifier name)

/-- Evaluates a node as a truth value. -/
def emitCondition (id : NodeId) : CompileM Operand := do
  let location ← locate id
  truthValue (← perform (.emitExpr id)) location

/-- A binary operation on two values: an operator function for an aggregate on the left, arithmetic
otherwise. -/
def emitOperation (op : BinaryOp) (left right : Rvalue) (location : Location) :
    CompileM Rvalue := do
  if left.type.isAggregate then
    match op.tag? with
    | none => bail location (.cannotOverload op)
    | some tag => callOperator left.type.canonical tag [left, right] location
  else if right.type.isAggregate then
    bail location (.invalidOperands op left.type.canonical right.type.canonical)
  else emitArith op left right location

/-- Stores into a place, after an operation on its current value for a compound assignment. -/
def storeAssignment (op : BinaryOp) (place : Place) (rhs : NodeId) (location : Location) :
    CompileM Rvalue := do
  if place.type.isConst then bail location (.assignToConstant place.type.canonical)
  let value ←
    match op.compoundBase? with
    | some base => do
      let current ← loadPlace place location
      let right ← perform (.emitExpr rhs)
      emitOperation base current right location
    | none => perform (.emitExpr rhs)
  let value ← coerce value place.type.strip location
  build (FunctionBuilder.store value.operand place.address)
  return value

/-- An assignment; one to an element of an aggregate goes through its `[]=` operator. -/
def emitAssign (op : BinaryOp) (lhs rhs : NodeId) (location : Location) : CompileM Rvalue := do
  match ← kindOf lhs with
  | .index base index =>
    let basePlace ← placeOrSlot base
    if basePlace.type.isAggregate && op == .assign then
      let value ← perform (.emitExpr rhs)
      callIndex basePlace index (some value) location
    else
      let place ← indexPlace basePlace index location
      storeAssignment op place rhs location
  | _ =>
    let place ← perform (.emitPlace lhs)
    storeAssignment op place rhs location

/-- A logical operator, which evaluates its right operand only when it decides. -/
def emitLogical (op : BinaryOp) (lhs rhs : NodeId) : CompileM Rvalue := do
  let left ← emitCondition lhs
  let (result, endBlock) ← build do
    let result ← FunctionBuilder.alloca .i1
    FunctionBuilder.store left result
    let rhsBlock ← FunctionBuilder.createBlock "logic.rhs"
    let endBlock ← FunctionBuilder.createBlock "logic.end"
    if op = .and then FunctionBuilder.condBr left rhsBlock endBlock
    else FunctionBuilder.condBr left endBlock rhsBlock
    FunctionBuilder.switchTo rhsBlock
    return (result, endBlock)
  let right ← emitCondition rhs
  let value ← build do
    FunctionBuilder.store right result
    FunctionBuilder.br endBlock
    FunctionBuilder.switchTo endBlock
    FunctionBuilder.load result .i1
  return ⟨.bool, value⟩

def emitBinary (op : BinaryOp) (lhs rhs : NodeId) (location : Location) : CompileM Rvalue := do
  if op.isAssignment then emitAssign op lhs rhs location
  else if op.isLogical then emitLogical op lhs rhs
  else
    let left ← perform (.emitExpr lhs)
    let right ← perform (.emitExpr rhs)
    emitOperation op left right location

/-- The address of a place.  Of a function it is the function itself. -/
def emitAddress (operand : NodeId) : CompileM Rvalue := do
  let isFunction ←
    match ← kindOf operand with
    | .ident name _ => pure !(← get).isVariable name
    | _ => pure false
  if isFunction then perform (.emitExpr operand)
  else
    let place ← perform (.emitPlace operand)
    return ⟨.pointer place.type.strip, place.address⟩

/-- A negation or complement of a number. -/
def emitInversion (op : UnaryOp) (operand : NodeId) (location : Location) : CompileM Rvalue := do
  let value ← perform (.emitExpr operand)
  let type := value.type.strip
  let isValid := type.isInteger || (op == .neg && type.isFloat)
  if !isValid then bail location (.invalidOperand op type.canonical)
  let machine ← lower type location
  let operation := if op = .neg then Operation.neg value.operand else .not value.operand
  return ⟨type, ← build (FunctionBuilder.push operation (some machine))⟩

def emitUnary (id : NodeId) (op : UnaryOp) (operand : NodeId) (location : Location) :
    CompileM Rvalue := do
  match op with
  | .deref => loadPlace (← perform (.emitPlace id)) location
  | .addrOf => emitAddress operand
  | .not =>
    let condition ← emitCondition operand
    return ⟨.bool, ← build (FunctionBuilder.push (.not condition) (some .i1))⟩
  | .neg | .bitNot => emitInversion op operand location

/-- Stores the values of a literal into the fields they stand for. -/
def storeFields (slot : Operand) (location : Location) (pairs : List (FieldSymbol × NodeId)) :
    CompileM Unit :=
  pairs.forM fun (field, node) => do
    let value ← coerce (← perform (.emitExpr node)) field.type location
    let place ← fieldPlace slot field location
    build (FunctionBuilder.store value.operand place.address)

/-- An aggregate literal; fields without a value get their defaults. -/
def emitAggregateLit (type : SourceType) (values : List NodeId) (location : Location) :
    CompileM Rvalue := do
  let type ← resolveType type location
  match type.aggregateName? with
  | none => bail location (.notAggregate type.canonical)
  | some name =>
    ensureChecked name location
    match (← get).symbols.aggregates.get? name with
    | none => bail location (.unknownAggregate name)
    | some aggregate =>
      let fields := aggregate.fields
      if fields.length < values.length then
        bail location (.tooManyValues name fields.length values.length)
      let machine ← lower type location
      let slot ← build (FunctionBuilder.alloca machine)
      let isShort := values.length < fields.length
      if isShort then build (FunctionBuilder.store (.constant (.zero machine)) slot)
      storeFields slot location (fields.zip values)
      if isShort then perform (.applyDefaults type slot values.length location)
      return ⟨type.strip, ← build (FunctionBuilder.load slot machine)⟩

/-- Stores a value as an element of an array literal. -/
def storeElement (slot : Operand) (element : SourceType) (machine : IrType) (location : Location)
    (index : Nat) (value : Rvalue) : CompileM Unit := do
  let value ← coerce value element location
  build do
    let indices := [constInt 0 .i64, constInt index .i64]
    let address ← FunctionBuilder.elementPtr slot indices machine
    FunctionBuilder.store value.operand address

/-- An array literal; its elements convert to the type of the first. -/
def emitArrayLit (values : List NodeId) (location : Location) : CompileM Rvalue := do
  match values with
  | [] => bail location .emptyArrayLiteral
  | first :: rest =>
    let head ← perform (.emitExpr first)
    let element := head.type.strip
    if element.isVoid then bail location .voidElements
    let type := SourceType.array element (.fixed values.length)
    let machine ← lower type location
    let elementMachine ← lower element location
    let slot ← build (FunctionBuilder.alloca machine)
    storeElement slot element elementMachine location 0 head
    (rest.zipIdx 1).forM fun (node, index) => do
      let value ← perform (.emitExpr node)
      storeElement slot element elementMachine location index value
    return ⟨type, ← build (FunctionBuilder.load slot machine)⟩

/-- A call of a member: a method, or the function that a field holds. -/
def emitMemberCall (base : NodeId) (name : String) (args : List NodeId) (location : Location) :
    CompileM Rvalue := do
  let (owner, this) ← memberBase base location
  match ← orBail location ((← get).symbols.member owner name) with
  | .methods keys =>
    let args := thisArgument owner this :: (← emitArguments args)
    let method := owner ++ "." ++ name
    let key ← orBail location ((← get).symbols.pickOverload method keys (argumentTypes args))
    callFunction key args location
  | .field field =>
    let machine ← lower field.type location
    let target ← build do
      let address ← FunctionBuilder.fieldPtr this field.index machine
      FunctionBuilder.load address machine
    let args ← emitArguments args
    callIndirect ⟨field.type, target⟩ args location

/-- A call of a name that is no variable: an aggregate to build or a function. -/
def emitNamedCall (name : String) (args : List NodeId) (location : Location) : CompileM Rvalue := do
  match ← constructedAggregate name location with
  | some aggregate => constructDefault aggregate args.length location
  | none =>
    let args ← emitArguments args
    let key ← orBail location ((← get).resolveFunction name (argumentTypes args))
    callFunction key args location

/-- A call of a name with template arguments. -/
def emitGenericCall (name : String) (templateArgs : List TemplateArg) (args : List NodeId)
    (location : Location) : CompileM Rvalue := do
  match ← constructedInstance name templateArgs location with
  | some aggregate => construct aggregate args location
  | none =>
    let key ← instantiateFunction name templateArgs location
    callFunction key (← emitArguments args) location

def emitValueCall (callee : NodeId) (args : List NodeId) (location : Location) :
    CompileM Rvalue := do
  let target ← perform (.emitExpr callee)
  callIndirect target (← emitArguments args) location

def emitCall (callee : NodeId) (args : List NodeId) (location : Location) : CompileM Rvalue := do
  match ← kindOf callee with
  | .ident name [] =>
    if (← get).isVariable name then emitValueCall callee args location
    else emitNamedCall name args location
  | .ident name templateArgs => emitGenericCall name templateArgs args location
  | .get base name => emitMemberCall base name args location
  | _ => emitValueCall callee args location

/-- Evaluates a node. -/
def emitExpr (id : NodeId) : CompileM Rvalue := do
  let location ← locate id
  match ← kindOf id with
  | .int _ | .float _ | .bool _ | .char _ | .null | .sizeOf _ =>
    emitConst (← foldRequired id "a literal")
  | .str text => emitString text
  | .ident name [] => emitName name location
  | .ident name args => functionValue (← instantiateFunction name args location)
  | .unary op operand => emitUnary id op operand location
  | .binary op lhs rhs => emitBinary op lhs rhs location
  | .get .. => loadPlace (← perform (.emitPlace id)) location
  | .index base index =>
    let place ← placeOrSlot base
    if place.type.isAggregate then callIndex place index none location
    else loadPlace (← indexPlace place index location) location
  | .call callee args => emitCall callee args location
  | .cast type value =>
    let type ← resolveType type location
    castTo (← perform (.emitExpr value)) type location
  | .builtin name args =>
    match ← evalBuiltin id name args with
    | some value => emitConst value
    | none => return .void
  | .aggregateLit type values => emitAggregateLit type values location
  | .arrayLit values => emitArrayLit values location
  | _ => bail location .expectedExpression

/-- The place that a node designates. -/
def emitPlace (id : NodeId) : CompileM Place := do
  let location ← locate id
  match ← kindOf id with
  | .ident name [] =>
    if (← get).isVariable name then variablePlace name location
    else bail location .notAssignable
  | .get base name => memberPlace base name location
  | .index base index =>
    let place ← placeOrSlot base
    if place.type.isAggregate then
      materialize (← callIndex place index none location) location
    else indexPlace place index location
  | .unary .deref operand => derefPlace (← perform (.emitExpr operand)) location
  | _ => bail location .notAssignable

end CompileM
end UnitCompiler
