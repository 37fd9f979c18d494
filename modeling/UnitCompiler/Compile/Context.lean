import UnitCompiler.Compile.Problem
import UnitCompiler.Compile.Scope
import UnitCompiler.Ir.Builder
import UnitCompiler.Source.Diagnostic
import UnitCompiler.Tree.Arena

/-!
# The state of a compilation

One context holds all state of a unit.  The work of the compiler is cut into jobs that call for each
other; an action performs a job through its performer, so that the recursion among jobs is tied in one
place and by one measure.
-/

namespace UnitCompiler

inductive Phase where
  | check
  | emit
deriving DecidableEq, Repr, Inhabited

/-- How far a declaration has come. -/
inductive NodeState where
  | unchecked
  | checked
  | emitted
deriving DecidableEq, Repr, Inhabited

/-- Instances made while checking, which wait for emission. -/
inductive Pending where
  | function (key : String)
  | aggregate (name : String)
deriving DecidableEq, Repr

/-- The function under emission. -/
structure FunctionState where
  builder : FunctionBuilder
  ret : SourceType
  /-- Where the result is kept; absent when there is none. -/
  resultSlot : Option Operand := none
  exit : Nat
  /-- The last block of the exit path, behind the deferred statements. -/
  exitTail : Nat
  scope : Scope := {}
  /-- The loops around the current statement, the innermost first. -/
  loops : List LoopTargets := []
  returnsZero : Bool := false
  isConstructor : Bool := false
  inDefer : Bool := false

structure Context where
  tree : Tree
  options : CompileOptions := {}
  symbols : SymbolTables := {}
  states : Table NodeId NodeState := {}
  subst : Substitution := {}
  /-- The namespaces around the current declaration, outermost first. -/
  space : List String := []
  function : Option FunctionState := none
  program : Program := {}
  log : DiagnosticLog := {}
  pending : List Pending := []
  phase : Phase := .check
  instantiationDepth : Nat := 0
  nestingDepth : Nat := 0
  stringCount : Nat := 0
  /-- How deep jobs may nest. -/
  jobDepth : Nat := 0

/-- A value and its type. -/
structure Rvalue where
  type : SourceType
  operand : Operand

def Rvalue.void : Rvalue := ⟨.void, .undef .void⟩

/-- An address and the type of what is stored there. -/
structure Place where
  type : SourceType
  address : Operand

/-- Why an action ends early. -/
inductive Stop where
  | failed (error : CompileError)
  /-- A node number lies outside the arena. -/
  | missingNode
  /-- Jobs nest deeper than they can in a tree without cycles. -/
  | exhausted

/-- Work that may call for other work. -/
inductive Job where
  /-- Record the aggregates below a declaration by name. -/
  | collect (id : NodeId) (space : List String)
  | fold (id : NodeId)
  | checkNode (id : NodeId)
  | checkFunction (id : NodeId) (owner : Option String) (isInstance : Bool)
  | checkAggregate (id : NodeId) (instanceName : Option String)
  /-- Check every aggregate that a type holds by value. -/
  | complete (type : SourceType) (location : Location)
  /-- Whether the default value of a type is more than zero. -/
  | needsDefaults (type : SourceType) (location : Location)
  /-- Store the defaults of a type's fields, but for the first ones. -/
  | applyDefaults (type : SourceType) (slot : Operand) (skipped : Nat) (location : Location)
  | emitDeclaration (id : NodeId)
  | emitFunction (key : String)
  | emitAggregate (name : String)
  | emitPending
  | emitExpr (id : NodeId)
  | emitPlace (id : NodeId)
  | emitStmt (id : NodeId)

/-- What a job gives. -/
@[reducible] def Job.Result : Job → Type
  | .collect .. | .checkNode _ | .complete .. | .applyDefaults .. | .emitDeclaration _
  | .emitFunction _ | .emitAggregate _ | .emitPending | .emitStmt _ => Unit
  | .fold _ => Option ConstValue
  | .checkFunction .. | .checkAggregate .. => Option String
  | .needsDefaults .. => Bool
  | .emitExpr _ => Rvalue
  | .emitPlace _ => Place

/-- A way to do every job.  What a job did before it stopped stays done. -/
abbrev Performer := (job : Job) → EStateM Stop Context job.Result

/-- Actions of the compiler. -/
abbrev CompileM := ReaderT Performer (EStateM Stop Context)

namespace Context

/-- How deep jobs may nest in a tree: along a path of the tree, once for the unit and once for every
level of instantiation. -/
def jobDepthOf (tree : Tree) (options : CompileOptions) : Nat :=
  (4 * tree.size + 256) * (options.maxInstantiationDepth + 2)

def new (tree : Tree) (options : CompileOptions) : Context :=
  { tree, options, jobDepth := jobDepthOf tree options }

def layout (c : Context) : DataLayout := DataLayout.ofPointerBits c.options.pointerBits

/-- The context of a new compilation of the tree as it stands. -/
def reset (c : Context) : Context := { new c.tree c.options with jobDepth := c.jobDepth }

def stateOf (c : Context) (id : NodeId) : NodeState := (c.states.get? id).getD .unchecked

def sizeOf? (c : Context) (type : SourceType) : Option Nat :=
  type.sizeBytes? (c.symbols.layoutSource c.options.pointerBits)

def qualify (c : Context) (name : String) : String := qualifyIn c.space name

/-- The qualified spellings of a name from the innermost namespace outwards. -/
def candidates (c : Context) (name : String) : List String :=
  (List.range (c.space.length + 1)).reverse.map fun depth => qualifyIn (c.space.take depth) name

/-- The context with a warning, unless warnings are off. -/
def warn (c : Context) (location : Location) (message code : String) : Context :=
  if c.options.warningsEnabled then
    let warning : Diagnostic :=
      { severity := .warning, message, location := some location, code := some code }
    { c with log := c.log.add warning }
  else c

/-- The context with a warning for each unused variable. -/
def reportUnused (c : Context) (vars : List LocalVar) : Context :=
  if c.options.warnUnused then
    vars.foldl (fun c v =>
      c.warn (c.tree.locate v.span) s!"unused variable '{v.name}'" "unused-variable") c
  else c

/-- A local variable or alias of the function under emission. -/
def localVar? (c : Context) (name : String) : Option LocalVar :=
  c.function.bind (·.scope.lookup name)

def localAlias? (c : Context) (name : String) : Option AliasEntry :=
  c.function.bind (·.scope.alias? name)

end Context

namespace CompileM

def perform (job : Job) : CompileM job.Result := fun performer => performer job

/-- Stops with a problem at a place. -/
def bail {α : Type} (location : Location) (problem : Problem) : CompileM α :=
  throw (.failed (.semantic location problem))

/-- Stops with a problem without a place. -/
def fail {α : Type} (problem : Problem) : CompileM α := throw (.failed (.internal problem))

/-- The value, or a stop at the place. -/
def orBail {α : Type} (location : Location) : Except Problem α → CompileM α
  | .ok a => pure a
  | .error problem => bail location problem

def nodeAt (id : NodeId) : CompileM Node := do
  match (← get).tree.node? id with
  | some node => pure node
  | none => throw .missingNode

def kindOf (id : NodeId) : CompileM NodeKind := return (← nodeAt id).kind

def spanOf (id : NodeId) : CompileM Span := return (← nodeAt id).span

def locate (id : NodeId) : CompileM Location := do
  let span ← spanOf id
  return (← get).tree.locate span

def modifySymbols (f : SymbolTables → SymbolTables) : CompileM Unit :=
  modify fun c => { c with symbols := f c.symbols }

def setState (id : NodeId) (state : NodeState) : CompileM Unit :=
  modify fun c => { c with states := c.states.insert id state }

/-- Marks a node checked; false when it was so before. -/
def beginCheck (id : NodeId) : CompileM Bool := do
  if (← get).stateOf id ≠ .unchecked then return false
  setState id .checked
  return true

/-- Marks a node emitted; false when it was so before. -/
def beginEmit (id : NodeId) : CompileM Bool := do
  if (← get).stateOf id = .emitted then return false
  setState id .emitted
  return true

def warn (location : Location) (message code : String) : CompileM Unit :=
  modify (·.warn location message code)

def functionState : CompileM FunctionState := do
  match (← get).function with
  | some f => pure f
  | none => fail .noFunction

def setFunctionState (f : FunctionState) : CompileM Unit :=
  modify fun c => { c with function := some f }

def modifyFunction (g : FunctionState → FunctionState) : CompileM Unit := do
  setFunctionState (g (← functionState))

/-- Runs a builder action on the function under emission. -/
def build {α : Type} (action : BuildM α) : CompileM α := do
  let f ← functionState
  let (a, builder) := action.run f.builder
  setFunctionState { f with builder }
  return a

def modifyScope (g : Scope → Scope) : CompileM Unit :=
  modifyFunction fun f => { f with scope := g f.scope }

def openScope : CompileM Unit := modifyScope Scope.push

/-- Closes the innermost scope and reports what it leaves unused. -/
def closeScope : CompileM Unit := do
  let f ← functionState
  let (unused, scope) := f.scope.pop
  setFunctionState { f with scope }
  modify (·.reportUnused unused)

/-- Declares a variable; false when the innermost scope has one of the name. -/
def declare (v : LocalVar) : CompileM Bool := do
  let f ← functionState
  match f.scope.declare v with
  | some scope =>
    setFunctionState { f with scope }
    return true
  | none => return false

/-- Runs an action and applies `restore` to the context it ends in, however it ends. -/
def restoring {α : Type} (action : CompileM α) (restore : Context → Context) : CompileM α :=
  fun performer c =>
    match action performer c with
    | .ok a c => .ok a (restore c)
    | .error stop c => .error stop (restore c)

/-- Runs an action in the environment of another declaration, outside of any function. -/
def within {α : Type} (subst : Substitution) (space : List String) (action : CompileM α) :
    CompileM α := do
  let outer ← get
  set { outer with subst, space, function := none }
  restoring action fun c =>
    { c with subst := outer.subst, space := outer.space, function := outer.function }

/-- Runs an action in the environment of a template instance, one level of instantiation deeper. -/
def instantiating {α : Type} (subst : Substitution) (space : List String) (location : Location)
    (action : CompileM α) : CompileM α := do
  let c ← get
  let limit := c.options.maxInstantiationDepth
  if limit ≤ c.instantiationDepth then bail location (.instantiationDepth limit)
  set { c with instantiationDepth := c.instantiationDepth + 1 }
  restoring (within subst space action) fun c =>
    { c with instantiationDepth := c.instantiationDepth - 1 }

/-- Runs an action one namespace deeper. -/
def inSpace {α : Type} (name : String) (action : CompileM α) : CompileM α := do
  modify fun c => { c with space := c.space ++ [name] }
  restoring action fun c => { c with space := c.space.dropLast }

/-- Copies a subtree of the arena. -/
def copySubtree (id : NodeId) : CompileM NodeId := do
  let c ← get
  match c.tree.copySubtree id with
  | .ok (copy, tree) =>
    set { c with tree }
    return copy
  | .error (.missing _) => throw .missingNode
  | .error .cyclic => throw .exhausted

def modifyKind (id : NodeId) (f : NodeKind → NodeKind) : CompileM Unit :=
  modify fun c => { c with tree := c.tree.modifyKind id f }

end CompileM
end UnitCompiler
