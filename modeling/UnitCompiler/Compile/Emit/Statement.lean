import UnitCompiler.Compile.Declarations
import UnitCompiler.Compile.Emit.Expression

/-!
# Statements
-/

namespace UnitCompiler
namespace CompileM

/-- Emits the statements of a block up to the first one that leaves it; nothing behind that one is
reached. -/
def emitItems : List NodeId → CompileM Unit
  | [] => return
  | item :: rest => do
    if (← functionState).builder.isTerminated then return
    perform (.emitStmt item)
    emitItems rest

def emitBlock (items : List NodeId) (location : Location) : CompileM Unit := do
  let c ← get
  if c.options.maxNestingDepth ≤ c.nestingDepth then bail location .blocksTooDeep
  set { c with nestingDepth := c.nestingDepth + 1 }
  openScope
  emitItems items
  closeScope
  modify fun c => { c with nestingDepth := c.nestingDepth - 1 }

/-- The slot of a local variable; one without an initializer gets the defaults of its type. -/
def localSlot (type : SourceType) (hasInit : Bool) (location : Location) : CompileM Operand := do
  let usesDefaults ← if hasInit then pure false else needsDefaults type location
  if usesDefaults then defaultSlot type location
  else
    let machine ← lower type location
    build (FunctionBuilder.alloca machine)

def emitLocal (id : NodeId) (decl : VariableDecl) (location : Location) : CompileM Unit := do
  let init ← decl.init.mapM fun node => perform (.emitExpr node)
  let type ←
    match decl.type, init with
    | some type, _ => resolveType type location
    | none, some value => pure value.type.strip
    | none, none => bail location (.cannotInfer decl.name)
  if type.isVoid then bail location (.voidVariable decl.name)
  if decl.isConst && init.isNone then bail location (.constantWithoutValue decl.name)
  let type := if decl.isConst && !type.isConst then .const type else type
  let slot ← localSlot type init.isSome location
  if let some value := init then
    let value ← coerce value type location
    build (FunctionBuilder.store value.operand slot)
  let declared ← declare { name := decl.name, type, slot, span := ← spanOf id }
  if !declared then bail location (.variableInScope decl.name)

/-- A branch of a conditional: a statement in a block of its own that leads to `next`. -/
def emitBranch (start : Nat) (body : NodeId) (next : Nat) : CompileM Unit := do
  build (FunctionBuilder.switchTo start)
  perform (.emitStmt body)
  build (FunctionBuilder.br next)

def emitIf (cond yes : NodeId) (no : Option NodeId) : CompileM Unit := do
  let condition ← emitCondition cond
  let (yesBlock, noBlock, endBlock) ← build do
    let yesBlock ← FunctionBuilder.createBlock "if.then"
    let noBlock ← no.mapM fun _ => FunctionBuilder.createBlock "if.else"
    let endBlock ← FunctionBuilder.createBlock "if.end"
    FunctionBuilder.condBr condition yesBlock (noBlock.getD endBlock)
    return (yesBlock, noBlock, endBlock)
  emitBranch yesBlock yes endBlock
  if let (some start, some body) := (noBlock, no) then emitBranch start body endBlock
  build (FunctionBuilder.switchTo endBlock)

/-- Emits the body of a loop, in which `break` and `continue` have targets. -/
def emitLoopBody (body : NodeId) (breakTo continueTo : Nat) : CompileM Unit := do
  modifyFunction fun f => { f with loops := ⟨breakTo, continueTo⟩ :: f.loops }
  perform (.emitStmt body)
  modifyFunction fun f => { f with loops := f.loops.tail }

def emitWhile (cond body : NodeId) : CompileM Unit := do
  let (condBlock, bodyBlock, endBlock) ← build do
    let condBlock ← FunctionBuilder.createBlock "while.cond"
    let bodyBlock ← FunctionBuilder.createBlock "while.body"
    let endBlock ← FunctionBuilder.createBlock "while.end"
    FunctionBuilder.br condBlock
    FunctionBuilder.switchTo condBlock
    return (condBlock, bodyBlock, endBlock)
  let condition ← emitCondition cond
  build do
    FunctionBuilder.condBr condition bodyBlock endBlock
    FunctionBuilder.switchTo bodyBlock
  emitLoopBody body endBlock condBlock
  build do
    FunctionBuilder.br condBlock
    FunctionBuilder.switchTo endBlock

def emitFor (init cond step : Option NodeId) (body : NodeId) : CompileM Unit := do
  openScope
  if let some init := init then perform (.emitStmt init)
  let (condBlock, bodyBlock, stepBlock, endBlock) ← build do
    let condBlock ← FunctionBuilder.createBlock "for.cond"
    let bodyBlock ← FunctionBuilder.createBlock "for.body"
    let stepBlock ← FunctionBuilder.createBlock "for.step"
    let endBlock ← FunctionBuilder.createBlock "for.end"
    FunctionBuilder.br condBlock
    FunctionBuilder.switchTo condBlock
    return (condBlock, bodyBlock, stepBlock, endBlock)
  match cond with
  | some cond =>
    let condition ← emitCondition cond
    build (FunctionBuilder.condBr condition bodyBlock endBlock)
  | none => build (FunctionBuilder.br bodyBlock)
  build (FunctionBuilder.switchTo bodyBlock)
  emitLoopBody body endBlock stepBlock
  build do
    FunctionBuilder.br stepBlock
    FunctionBuilder.switchTo stepBlock
  if let some step := step then discard (perform (.emitExpr step))
  build do
    FunctionBuilder.br condBlock
    FunctionBuilder.switchTo endBlock
  closeScope

def emitReturn (value : Option NodeId) (location : Location) : CompileM Unit := do
  let f ← functionState
  if f.inDefer then bail location .returnInDefer
  if f.isConstructor then
    if value.isSome then bail location .constructorReturnsValue
  else
    match value, f.resultSlot with
    | some value, some slot =>
      let value ← coerce (← perform (.emitExpr value)) f.ret location
      build (FunctionBuilder.store value.operand slot)
    | some _, none => bail location .voidReturnsValue
    | none, some _ => bail location (.mustReturnValue f.ret.canonical)
    | none, none => pure ()
  build (FunctionBuilder.br f.exit)

/-- One case of a switch: its body runs when the values are equal, and control leaves the switch. -/
def emitCase (scrutinee : Rvalue) (endBlock : Nat) (case : SwitchCase) : CompileM Unit := do
  let location ← locate case.value
  let candidate ← perform (.emitExpr case.value)
  let equal ← emitOperation .eq scrutinee candidate location
  let condition ← truthValue equal location
  let nextBlock ← build do
    let bodyBlock ← FunctionBuilder.createBlock "switch.case"
    let nextBlock ← FunctionBuilder.createBlock "switch.next"
    FunctionBuilder.condBr condition bodyBlock nextBlock
    FunctionBuilder.switchTo bodyBlock
    return nextBlock
  perform (.emitStmt case.body)
  build do
    FunctionBuilder.br endBlock
    FunctionBuilder.switchTo nextBlock

def emitSwitch (value : NodeId) (cases : List SwitchCase) (default : Option NodeId)
    (location : Location) : CompileM Unit := do
  if cases.isEmpty then bail location .emptySwitch
  let scrutinee ← perform (.emitExpr value)
  let endBlock ← build (FunctionBuilder.createBlock "switch.end")
  cases.forM (emitCase scrutinee endBlock)
  if let some body := default then perform (.emitStmt body)
  build do
    FunctionBuilder.br endBlock
    FunctionBuilder.switchTo endBlock

/-- How often the body of a loop over elements runs.  An array knows its length, a pointer does
not. -/
def foreachCount (place : Place) (length : Option NodeId) (location : Location) :
    CompileM Rvalue := do
  match place.type.strip, length with
  | .array .., some length | .pointer _, some length =>
    let value ← perform (.emitExpr length)
    if !value.type.isInteger then bail location (.foreachLength value.type.canonical)
    castTo value .long location
  | .array _ (.fixed length), none => emitConst (.int length .long)
  | .pointer _, none => bail location (.foreachNeedsLength place.type.canonical)
  | other, _ => bail location (.cannotIterate other.canonical)

/-- Binds the name of the loop variable to a copy of the current element, and runs the body. -/
def emitForeachBody (id : NodeId) (name : String) (place counter : Place) (body : NodeId)
    (endBlock stepBlock : Nat) (location : Location) : CompileM Unit := do
  openScope
  let index ← loadPlace counter location
  let element ← elementPlace place index location
  let type := element.type.strip
  let value ← loadPlace element location
  let slot ← materialize ⟨type, value.operand⟩ location
  discard (declare { name, type, slot := slot.address, span := ← spanOf id })
  emitLoopBody body endBlock stepBlock
  closeScope

def emitForeach (id : NodeId) (name : String) (data : NodeId) (length : Option NodeId)
    (body : NodeId) (location : Location) : CompileM Unit := do
  let place ← placeOrSlot data
  let count ← foreachCount place length location
  let zero ← emitConst (.int 0 .long)
  let counter ← materialize zero location
  let (condBlock, bodyBlock, stepBlock, endBlock) ← build do
    let condBlock ← FunctionBuilder.createBlock "foreach.cond"
    let bodyBlock ← FunctionBuilder.createBlock "foreach.body"
    let stepBlock ← FunctionBuilder.createBlock "foreach.step"
    let endBlock ← FunctionBuilder.createBlock "foreach.end"
    FunctionBuilder.br condBlock
    FunctionBuilder.switchTo condBlock
    return (condBlock, bodyBlock, stepBlock, endBlock)
  let current ← loadPlace counter location
  let more ← emitOperation .lt current count location
  let condition ← truthValue more location
  build do
    FunctionBuilder.condBr condition bodyBlock endBlock
    FunctionBuilder.switchTo bodyBlock
  emitForeachBody id name place counter body endBlock stepBlock location
  build do
    FunctionBuilder.br stepBlock
    FunctionBuilder.switchTo stepBlock
  let current ← loadPlace counter location
  let one ← emitConst (.int 1 .long)
  let next ← emitOperation .add current one location
  build do
    FunctionBuilder.store next.operand counter.address
    FunctionBuilder.br condBlock
    FunctionBuilder.switchTo endBlock

/-- Puts a statement on the exit path behind a flag that is set here, so that it runs at the end only
if this point was reached.  Deferred statements run in the order they appear. -/
def emitDefer (stmt : NodeId) (location : Location) : CompileM Unit := do
  let f ← functionState
  if f.inDefer then bail location .deferInDefer
  let (resume, nextBlock) ← build do
    let flag ← FunctionBuilder.entrySlot .i1 (.constant (.bool false))
    FunctionBuilder.store (.constant (.bool true)) flag
    let resume := (← get).current
    let runBlock ← FunctionBuilder.createBlock "defer.run"
    let nextBlock ← FunctionBuilder.createBlock "defer.next"
    FunctionBuilder.switchTo f.exitTail
    let reached ← FunctionBuilder.load flag .i1
    FunctionBuilder.condBr reached runBlock nextBlock
    FunctionBuilder.switchTo runBlock
    return (resume, nextBlock)
  modifyFunction fun f => { f with exitTail := nextBlock, inDefer := true, loops := [] }
  perform (.emitStmt stmt)
  modifyFunction fun g => { g with inDefer := false, loops := f.loops }
  build do
    FunctionBuilder.br nextBlock
    FunctionBuilder.switchTo resume

/-- Calls the destructor of an aggregate if it has one. -/
def emitDestroy (value : NodeId) (location : Location) : CompileM Unit := do
  let (owner, this) ← memberBase value location
  match (← get).symbols.methodsOf owner FunctionDecl.destructorName with
  | [] => return
  | key :: _ => discard (callFunction key [thisArgument owner this] location)

/-- Leaves or repeats the innermost loop. -/
def emitJump (word : String) (target : LoopTargets → Nat) (location : Location) :
    CompileM Unit := do
  match (← functionState).loops with
  | [] => bail location (.outsideLoop word)
  | targets :: _ => build (FunctionBuilder.br (target targets))

def emitLocalAlias (decl : AliasDecl) (location : Location) : CompileM Unit := do
  let entry ← aliasEntry location decl.target
  let f ← functionState
  let (isNew, scope) := f.scope.declareAlias decl.name entry
  setFunctionState { f with scope }
  if !isNew then bail location (.aliasInScope decl.name)

/-- Emits a statement. -/
def emitStmt (id : NodeId) : CompileM Unit := do
  let location ← locate id
  match ← kindOf id with
  | .block items => emitBlock items location
  | .variable decl => emitLocal id decl location
  | .ifElse cond yes no => emitIf cond yes no
  | .whileLoop cond body => emitWhile cond body
  | .forLoop init cond step body => emitFor init cond step body
  | .foreach name data length body => emitForeach id name data length body location
  | .switch value cases default => emitSwitch value cases default location
  | .defer stmt => emitDefer stmt location
  | .destroy value => emitDestroy value location
  | .breakLoop => emitJump "break" (·.breakTo) location
  | .continueLoop => emitJump "continue" (·.continueTo) location
  | .ret value => emitReturn value location
  | .staticIf cond yes no =>
    match ← staticBranch cond yes no with
    | some branch => perform (.emitStmt branch)
    | none => return
  | .builtin name args => discard (evalBuiltin id name args)
  | .alias decl => emitLocalAlias decl location
  | .function _ | .aggregate _ | .space .. => bail location .declarationInBody
  | _ => discard (perform (.emitExpr id))

end CompileM
end UnitCompiler
