import UnitCompiler.Compile.Emit.Statement

/-!
# Emission of declarations

Functions, aggregates and globals of a checked unit, each emitted once.
-/

namespace UnitCompiler

/-- The initializer of a global. -/
def initializer (value : ConstValue) (type : IrType) : Except Problem IrConstant :=
  match value with
  | .bool b =>
    match type with
    | .i1 => .ok (.bool b)
    | type => number value type
  | value => number value type
where
  number (value : ConstValue) (type : IrType) : Except Problem IrConstant :=
    let refused := Problem.cannotInitialize type.outline value.text
    if type.isFloat then
      match value.toDouble? with
      | some v => .ok (.float v type)
      | none => .error refused
    else if type.isInteger then
      match value.toInt? with
      | some v => .ok (.int v type)
      | none => .error refused
    else if type.isPointer && value == .null then .ok (.null type)
    else .error (.globalInitializer value.text)

namespace CompileM

/-- The machine signature of a function whose parameters have the given classes. -/
def machineSignature (f : FunctionSymbol) (classes : List PassingClass) (location : Location) :
    CompileM FunctionSignature := do
  let params ← (f.params.zip classes).mapM fun (type, cls) => passingType type cls location
  let ret ← if f.returnsZero then pure .i32 else lower f.ret location
  return { params, ret, isVariadic := f.isVariadic }

/-- Declares the parameters of the function under emission from number `index` on. -/
def declareParams (f : FunctionSymbol) (span : Span) (location : Location) :
    Nat → List (String × SourceType × PassingClass × IrType) → CompileM Unit
  | _, [] => return
  | index, (name, type, cls, machine) :: rest => do
    let slot ← bindParam index type cls location
    build (FunctionBuilder.addLocal ⟨index, machine, some name⟩)
    if !(← declare { name, type, slot, span, isParam := true }) then
      bail location (.parameterTwice name f.name)
    declareParams f span location (index + 1) rest

/-- Makes the slot of the result.  In a constructor it is the value under construction, which the body
knows as `this`. -/
def openResult (f : FunctionSymbol) (span : Span) (location : Location) : CompileM Unit := do
  match f.constructorOf with
  | some owner =>
    let type := SourceType.named owner
    let slot ← defaultSlot type location
    discard (declare { name := "this", type, slot, span, isUsed := true })
    modifyFunction fun s => { s with resultSlot := some slot }
  | none =>
    if f.ret.isVoid then return
    let machine ← lower f.ret location
    let slot ← build (FunctionBuilder.alloca machine)
    modifyFunction fun s => { s with resultSlot := some slot }

/-- Ends the function at the end of its exit path. -/
def closeResult (f : FunctionSymbol) (location : Location) : CompileM Unit := do
  let machine ← lower f.ret location
  let state ← functionState
  build do
    FunctionBuilder.br state.exit
    FunctionBuilder.switchTo state.exitTail
    if state.returnsZero then FunctionBuilder.ret (some (constI32 0))
    else
      match state.resultSlot with
      | some slot => FunctionBuilder.ret (some (← FunctionBuilder.load slot machine))
      | none => FunctionBuilder.ret none

/-- Adds the function under emission to the program, once it is verified. -/
def finishFunction : CompileM Unit := do
  let state ← functionState
  modify fun c => { c with function := none }
  let function := state.builder.finish
  match function.verify (← get).program with
  | .ok () => modify fun c => { c with program := c.program.addFunction function }
  | .error defect => throw (.failed (.backend function.name defect function.text))

def emitBody (f : FunctionSymbol) (function : IrFunction) (classes : List PassingClass)
    (body : NodeId) (location : Location) : CompileM Unit := do
  let start := FunctionBuilder.new function (← get).layout
  let (exit, builder) := (FunctionBuilder.createBlock "exit").run start
  setFunctionState
    { builder
      ret := f.ret
      exit
      exitTail := exit
      returnsZero := f.returnsZero
      isConstructor := f.constructorOf.isSome }
  openScope
  let span ← spanOf f.decl
  let params := f.paramNames.zip (f.params.zip (classes.zip function.signature.params))
  declareParams f span location 0 params
  openResult f span location
  perform (.emitStmt body)
  closeResult f location
  closeScope
  finishFunction

/-- Emits the function of a symbol in the environment of its body. -/
def emitSymbol (f : FunctionSymbol) : CompileM Unit := do
  let location ← locate f.decl
  match ← kindOf f.decl with
  | .function decl =>
    let classes ← classifyParams f location
    let signature ← machineSignature f classes location
    let isShared := f.isInstance || decl.hasModifier .inline
    let function : IrFunction :=
      { name := f.linkName
        signature
        convention := f.convention
        linkage := if isShared then .linkOnceOdr else .external }
    match decl.body with
    | some body => emitBody f function classes body location
    | none =>
      if ((← get).program.function? f.linkName).isNone then
        modify fun c => { c with program := c.program.addFunction function }
  | _ => bail location (.notFunction f.name)

/-- Emits the function with the key.  An external one is only declared. -/
def emitFunction (key : String) : CompileM Unit := do
  match (← get).symbols.functions.get? key with
  | none => fail (.unknownFunction key)
  | some f => if ← beginEmit f.decl then within f.subst f.space (emitSymbol f)

/-- Emits the definition of an aggregate, then its methods. -/
def emitAggregate (name : String) : CompileM Unit := do
  match (← get).symbols.aggregates.get? name with
  | none => fail (.unknownAggregate name)
  | some symbol =>
    if ← beginEmit symbol.decl then
      let location ← locate symbol.decl
      let type ← lower (SourceType.named name) location
      modify fun c => { c with program := c.program.addType ⟨name, type⟩ }
      symbol.methods.forM fun key => perform (.emitFunction key)

def emitGlobal (id : NodeId) (location : Location) : CompileM Unit := do
  match (← get).symbols.globals.values.find? (·.decl == id) with
  | none => bail location .globalNotChecked
  | some symbol =>
    let type ← lower symbol.type location
    let constant ←
      match symbol.value with
      | some value => orBail location (initializer value type)
      | none => pure (.zero type)
    let global : GlobalVariable :=
      { name := symbol.linkName, type, initializer := some constant, isConst := symbol.isConst }
    modify fun c => { c with program := c.program.addGlobal global }

/-- Emits the instances that were made while checking. -/
def emitPending : CompileM Unit := do
  let items := (← get).pending
  modify fun c => { c with pending := [] }
  items.forM fun
    | .function key => perform (.emitFunction key)
    | .aggregate name => perform (.emitAggregate name)
  if !(← get).pending.isEmpty then perform .emitPending

/-- Emits a declaration. -/
def emitDeclaration (id : NodeId) : CompileM Unit := do
  let location ← locate id
  match ← kindOf id with
  | .function decl =>
    if decl.isTemplate then return
    match (← get).symbols.declaredKeys.get? id with
    | some key => perform (.emitFunction key)
    | none => bail location (.functionNotChecked decl.name)
  | .aggregate decl =>
    if decl.isTemplate then return
    match (← get).symbols.declaredNames.get? id with
    | some name => perform (.emitAggregate name)
    | none => bail location (.aggregateNotChecked decl.name)
  | .variable _ => if ← beginEmit id then emitGlobal id location
  | .space name items => inSpace name (items.forM fun item => perform (.emitDeclaration item))
  | .staticIf cond yes no =>
    match ← staticBranch cond yes no with
    | some branch => perform (.emitDeclaration branch)
    | none => return
  | .block items => items.forM fun item => perform (.emitDeclaration item)
  | .alias _ | .builtin .. => return
  | _ => bail location .expectedDeclaration

end CompileM
end UnitCompiler
