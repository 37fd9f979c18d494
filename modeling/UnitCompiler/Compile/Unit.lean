import UnitCompiler.Compile.Emit.Declaration

/-!
# Compilation of a unit

The jobs of the compiler tied together: a job may call for others, each one level deeper.  A unit is
checked, then emitted; both phases may be repeated on one context.
-/

namespace UnitCompiler

/-- The work of a job, in terms of the jobs that it calls for. -/
def Job.work : (job : Job) → CompileM job.Result
  | .collect id space => CompileM.collect id space
  | .fold id => CompileM.foldNode id
  | .checkNode id => CompileM.checkNode id
  | .checkFunction id owner isInstance => CompileM.checkFunction id owner isInstance
  | .checkAggregate id instanceName => CompileM.checkAggregate id instanceName
  | .complete type location => CompileM.complete type location
  | .needsDefaults type location => CompileM.needsDefaults type location
  | .applyDefaults type slot skipped location =>
    CompileM.applyDefaults type slot skipped location
  | .emitDeclaration id => CompileM.emitDeclaration id
  | .emitFunction key => CompileM.emitFunction key
  | .emitAggregate name => CompileM.emitAggregate name
  | .emitPending => CompileM.emitPending
  | .emitExpr id => CompileM.emitExpr id
  | .emitPlace id => CompileM.emitPlace id
  | .emitStmt id => CompileM.emitStmt id

/-- Does jobs that nest at most `depth` levels deep. -/
def performWithin : Nat → Performer
  | 0, _ => throw .exhausted
  | depth + 1, job => job.work (performWithin depth)

namespace Context

/-- Runs an action of the compiler. -/
def run {α : Type} (c : Context) (action : CompileM α) : EStateM.Result Stop Context α :=
  action (performWithin c.jobDepth) c

/-- Registers every declaration below the roots. -/
def check (c : Context) (roots : List NodeId) : EStateM.Result Stop Context Unit :=
  { c with phase := .check }.run do
    roots.forM fun root => CompileM.perform (.collect root [])
    roots.forM fun root => CompileM.perform (.checkNode root)

/-- Emits every declaration below the roots and every instance that waits. -/
def emit (c : Context) (roots : List NodeId) : EStateM.Result Stop Context Unit :=
  { c with phase := .emit }.run do
    CompileM.perform .emitPending
    roots.forM fun root => CompileM.perform (.emitDeclaration root)
    CompileM.perform .emitPending

/-- The class in which a parameter of the type is passed. -/
def classify (c : Context) (type : SourceType) (location : Location) :
    EStateM.Result Stop Context PassingClass :=
  c.run (CompileM.classify type location)

end Context

/-- What compiling a unit gives. -/
structure CompiledUnit where
  program : Program
  log : DiagnosticLog

/-- Checks and emits a unit. -/
def compileUnit (tree : Tree) (roots : List NodeId) (options : CompileOptions) :
    Except Stop CompiledUnit :=
  match (Context.new tree options).check roots with
  | .error stop _ => .error stop
  | .ok () checked =>
    match checked.emit roots with
    | .error stop _ => .error stop
    | .ok () emitted => .ok ⟨emitted.program, emitted.log⟩

end UnitCompiler
