import UnitCompiler.Compile.Resolution

/-!
# Resolution of types

A written type is read under the bindings in force: names are qualified, aliases looked up, array
lengths folded, and generic aggregates instantiated.
-/

namespace UnitCompiler

/-- Binds one template parameter; a value is brought into the range of its kind. -/
def bindParam (template : String) (s : Substitution) (param : TemplateParam) (arg : TemplateArg) :
    Except Problem Substitution :=
  match param.kind, arg with
  | .type, .type type => .ok (s.bindType param.name type)
  | .value kind, .value value =>
    match value.toInt? with
    | some v => .ok (s.bindValue param.name (.int (kind.wrap v) kind))
    | none => .error (.expectsInteger param.name template value.text)
  | .type, .value value => .error (.expectsType param.name template value.text)
  | .value _, .type type => .error (.expectsValue param.name template type.canonical)

/-- The environment of a template's instance. -/
def bindParams (template : String) (params : List TemplateParam) (args : List TemplateArg) :
    Except Problem Substitution :=
  if params.length ≠ args.length then
    .error (.templateArgumentCount template params.length args.length)
  else
    (params.zip args).foldlM (fun s (param, arg) => bindParam template s param arg) {}

/-- How deep a written type may nest. -/
def maxTypeDepth : Nat := 64

def SourceType.bareName? : SourceType → Option String
  | .aggregate name [] => some name
  | _ => none

namespace CompileM

/-- Folds an expression that must have a value at compile time. -/
def foldRequired (id : NodeId) (what : String) : CompileM ConstValue := do
  match ← perform (.fold id) with
  | some value => pure value
  | none => bail (← locate id) (.notConstant what)

/-- Checks an aggregate that is only known by name. -/
def ensureChecked (name : String) (location : Location) : CompileM Unit := do
  let c ← get
  if c.symbols.aggregates.contains name then return
  match c.symbols.declaredAggregates.get? name with
  | none => bail location (.unknownAggregate name)
  | some site =>
    if c.stateOf site.decl ≠ .unchecked then bail location (.dependsOnItself name)
    within {} site.space do
      discard (perform (.checkAggregate site.decl none))

/-- Emits an aggregate instance now or, while checking, later. -/
def scheduleAggregate (name : String) : CompileM Unit := do
  match (← get).phase with
  | .emit => perform (.emitAggregate name)
  | .check => modify fun c => { c with pending := c.pending ++ [.aggregate name] }

/-- Makes and checks the instance `name` of an aggregate template.  It is known by name while its own
fields and methods are checked. -/
def makeAggregate (name : String) (site : DeclarationSite) : CompileM Unit := do
  let copy ← copySubtree site.decl
  modifyKind copy fun
    | .aggregate decl => .aggregate { decl with templateParams := [] }
    | kind => kind
  modifySymbols fun s =>
    { s with declaredAggregates := s.declaredAggregates.insert name ⟨copy, site.space⟩ }
  discard (perform (.checkAggregate copy (some name)))
  scheduleAggregate name

/-- The qualified name of an aggregate template, after making its instance unless it exists. -/
def ensureInstance (name : String) (args : List TemplateArg) (location : Location) :
    CompileM String := do
  let c ← get
  match c.aggregateTemplate? name with
  | none => bail location (.unknownAggregateTemplate name)
  | some (qualified, site) =>
    let canonical := (SourceType.aggregate qualified args).canonical
    if c.symbols.knowsAggregate canonical then return qualified
    if SourceType.anyArgHasParams args then bail location (.unboundArguments canonical)
    match ← kindOf site.decl with
    | .aggregate decl =>
      let subst ← orBail location (bindParams qualified decl.templateParams args)
      instantiating subst site.space location (makeAggregate canonical site)
      return qualified
    | _ => bail location (.templateNotAggregate qualified)

def resolveLength (location : Location) : ArrayLength → CompileM Nat
  | .fixed length => pure length
  | .param name => do
    match (← get).subst.values.get? name with
    | some value => ofValue value
    | none => bail location (.unboundValue name)
  | .expr node => do ofValue (← foldRequired node "an array length")
where
  ofValue (value : ConstValue) : CompileM Nat :=
    match value.toInt? with
    | some length =>
      if 0 ≤ length then pure (toU64 length) else bail location (.invalidArrayLength value.text)
    | none => bail location (.invalidArrayLength value.text)

def resolveNamed (name : String) (location : Location) : CompileM SourceType := do
  orBail location ((← get).resolveNamed name)

def checkDepth (location : Location) (depth : Nat) : CompileM Unit :=
  if maxTypeDepth < depth then bail location .typeTooDeep else pure ()

mutual

/-- Resolves a type at a depth of nesting. -/
def resolveAt (location : Location) : SourceType → Nat → CompileM SourceType
  | .void, depth => do
    checkDepth location depth
    return .void
  | .scalar kind, depth => do
    checkDepth location depth
    return .scalar kind
  | .pointer inner, depth => do
    checkDepth location depth
    return .pointer (← resolveAt location inner (depth + 1))
  | .const inner, depth => do
    checkDepth location depth
    return .const (← resolveAt location inner (depth + 1))
  | .array inner length, depth => do
    checkDepth location depth
    let inner ← resolveAt location inner (depth + 1)
    return .array inner (.fixed (← resolveLength location length))
  | .function ret params isVariadic, depth => do
    checkDepth location depth
    let ret ← resolveAt location ret (depth + 1)
    return .function ret (← resolveAll location params (depth + 1)) isVariadic
  | .templateParam name, depth => do
    checkDepth location depth
    bail location (.unboundParameter name)
  | .alias name target, depth => do
    checkDepth location depth
    return .alias name (← resolveAt location target (depth + 1))
  | .aggregate name args, depth => do
    checkDepth location depth
    if args.isEmpty then resolveNamed name location
    else
      let args ← resolveArgs location args (depth + 1)
      return .aggregate (← ensureInstance name args location) args

/-- Resolves a template argument.  A bare name may be an alias of a value. -/
def resolveArg (location : Location) : TemplateArg → Nat → CompileM TemplateArg
  | .value value, _ => return .value value
  | .type type, depth => do
    match type.bareName? with
    | some name =>
      match (← get).valueAlias? name with
      | some value => return .value value
      | none => return .type (← resolveNamed name location)
    | none => return .type (← resolveAt location type depth)

def resolveArgs (location : Location) : List TemplateArg → Nat → CompileM (List TemplateArg)
  | [], _ => return []
  | arg :: rest, depth => do
    let arg ← resolveArg location arg depth
    return arg :: (← resolveArgs location rest depth)

def resolveAll (location : Location) : List SourceType → Nat → CompileM (List SourceType)
  | [], _ => return []
  | type :: rest, depth => do
    let type ← resolveAt location type depth
    return type :: (← resolveAll location rest depth)

end

/-- Resolves a written type under the bindings in force. -/
def resolveType (type : SourceType) (location : Location) : CompileM SourceType := do
  resolveAt location (type.substitute (← get).subst) 0

/-- Checks the aggregates that a type holds by value, so that its layout is known. -/
def complete (type : SourceType) (location : Location) : CompileM Unit := do
  match type.strip with
  | .array inner _ => perform (.complete inner location)
  | .aggregate name args =>
    let name := (SourceType.aggregate name args).canonical
    ensureChecked name location
    let fields := ((← get).symbols.fieldTypes? name).getD []
    fields.forM fun field => perform (.complete field location)
  | _ => pure ()

end CompileM
end UnitCompiler
