import UnitCompiler.Compile.Evaluation

/-!
# Checking of declarations

Every declaration of a unit is registered once, with its types resolved.
-/

namespace UnitCompiler

namespace FunctionDecl

/-- The name a function is linked by; `owner` is that of a method or an operator. -/
def linkNameFor (d : FunctionDecl) (key : String) (owner : Option String) (isTopLevel : Bool) :
    String :=
  match d.linkName? with
  | some name => name
  | none =>
    let isMain := owner.isNone && isTopLevel && d.name == "main"
    if d.hasModifier .plainName || isMain then d.name
    else if owner.isSome then LinkName.method key
    else LinkName.function key

/-- The first calling convention among the modifiers. -/
def convention (d : FunctionDecl) : CallingConvention :=
  (d.modifiers.findSome? fun
    | .cdecl64 => some .sysV
    | .fastCall => some .fast
    | .coldCall => some .cold
    | _ => none).getD .c

def isConstructor (d : FunctionDecl) : Bool := d.operator.isNone && d.name == constructorName

/-- A method that an extending aggregate takes over unless it has one of the name. -/
def isInheritable (d : FunctionDecl) : Bool :=
  d.operator.isNone && d.name != constructorName && !d.hasModifier .noCopy

end FunctionDecl

/-- The operand type that an operator is entered under: a pointer to the owner stands for the
owner. -/
def operandType (owner : String) (type : SourceType) : SourceType :=
  match type.strip with
  | .pointer inner => if inner.aggregateName? == some owner then inner else .pointer inner
  | other => other

/-- Fields numbered in their order. -/
def numberFields (fields : List FieldSymbol) : List FieldSymbol :=
  fields.mapIdx fun index field => { field with index }

theorem index_of_numberFields {fields : List FieldSymbol} {i : Nat} {field : FieldSymbol}
    (h : (numberFields fields)[i]? = some field) : field.index = i := by
  rw [numberFields, List.getElem?_mapIdx] at h
  obtain ⟨f, -, rfl⟩ := Option.map_eq_some_iff.mp h
  rfl

theorem names_numberFields (fields : List FieldSymbol) :
    (numberFields fields).map (·.name) = fields.map (·.name) := by
  refine List.ext_getElem? fun i => ?_
  simp only [numberFields, List.getElem?_map, List.getElem?_mapIdx, Option.map_map]
  rfl

namespace CompileM

/-- Records the aggregates below a declaration by name, so that types may refer to later ones. -/
def collect (id : NodeId) (space : List String) : CompileM Unit := do
  match ← kindOf id with
  | .aggregate decl =>
    let name := qualifyIn space decl.name
    if decl.isTemplate || (← get).symbols.declaredAggregates.contains name then return
    modifySymbols fun s =>
      { s with declaredAggregates := s.declaredAggregates.insert name ⟨id, space⟩ }
  | .space name items => items.forM fun item => perform (.collect item (space ++ [name]))
  | _ => return

def registerTemplate (id : NodeId) (decl : FunctionDecl) (owner : Option String)
    (location : Location) : CompileM Unit := do
  match owner with
  | some owner => bail location (.genericMethod decl.name owner)
  | none =>
    let c ← get
    let name := c.qualify decl.name
    match c.symbols.templates.get? name with
    | some existing => bail location (.templateExists name (← locate existing.decl).line)
    | none =>
      modifySymbols fun s => { s with templates := s.templates.insert name ⟨id, c.space⟩ }

/-- The types of the parameters, resolved. -/
def resolveParams (decl : FunctionDecl) (location : Location) : CompileM (List SourceType) :=
  decl.params.mapM fun param => do
    let type ← resolveType param.type location
    if type.isVoid then bail location (.voidParameter param.name decl.name)
    return type

/-- Enters an operator into the table of its aggregate. -/
def enterOperator (tag : OperatorTag) (owner : String) (f : FunctionSymbol) (location : Location) :
    CompileM Unit := do
  let operands := signature (f.params.map (operandType owner))
  match (← get).symbols.aggregates.get? owner with
  | none => bail location (.unknownAggregate owner)
  | some aggregate =>
    if (aggregate.operator? tag operands).isSome then
      bail location (.operatorExists tag owner operands)
    let operators := aggregate.operators.update tag {} (·.insert operands f.key)
    modifySymbols fun s =>
      { s with aggregates := s.aggregates.insert owner { aggregate with operators } }

/-- The symbol of a function, with its types resolved.  A method other than an operator or a
constructor takes a pointer to its owner first. -/
def functionSymbol (id : NodeId) (decl : FunctionDecl) (owner : Option String) (isInstance : Bool)
    (location : Location) : CompileM FunctionSymbol := do
  let constructorOf := if decl.isConstructor then owner else none
  let this :=
    if decl.operator.isNone && constructorOf.isNone then
      owner.toList.map fun name => SourceType.pointer (SourceType.named name)
    else []
  let params := this ++ (← resolveParams decl location)
  let paramNames := this.map (fun _ => "this") ++ decl.params.map (·.name)
  let ret ←
    match constructorOf with
    | some owner => pure (SourceType.named owner)
    | none => resolveType decl.ret location
  let c ← get
  let name :=
    match owner, constructorOf with
    | _, some owner => owner
    | some owner, none => owner ++ "." ++ decl.name
    | none, none => c.qualify decl.name
  if decl.operator.isSome then
    match owner with
    | none => bail location (.operatorOutside decl.name)
    | some owner =>
      if params.isEmpty then bail location (.operatorWithoutOperands decl.name owner)
  let key := functionKey name params
  let owner := if constructorOf.isSome then none else owner
  return {
    decl := id
    name
    key
    linkName := decl.linkNameFor key owner c.space.isEmpty
    params
    paramNames
    ret
    isVariadic := decl.hasModifier .variadic
    convention := decl.convention
    owner
    constructorOf
    space := c.space
    isInstance
    isExternal := decl.body.isNone
    subst := c.subst }

/-- Enters a new function into the tables. -/
def register (decl : FunctionDecl) (owner : Option String) (f : FunctionSymbol)
    (location : Location) : CompileM Unit := do
  match owner, decl.operator, f.owner with
  | some owner, some tag, _ => enterOperator tag owner f location
  | _, _, some owner => modifySymbols (·.addMethod owner decl.name f.key)
  | _, _, none => pure ()
  modifySymbols (·.addFunction f)

/-- Registers a function and returns its key.  A template is only recorded and has none; an instance
that exists already is shared. -/
def checkFunction (id : NodeId) (owner : Option String) (isInstance : Bool) :
    CompileM (Option String) := do
  let location ← locate id
  match ← kindOf id with
  | .function decl =>
    if !(← beginCheck id) then return (← get).symbols.declaredKeys.get? id
    if decl.isTemplate then
      registerTemplate id decl owner location
      return none
    if let some owner := owner then
      if decl.name == FunctionDecl.destructorName && !decl.params.isEmpty then
        bail location (.destructorParameters owner)
      if decl.isConstructor && !decl.ret.isVoid then
        bail location (.constructorReturnType owner)
    let f ← functionSymbol id decl owner isInstance location
    match (← get).symbols.functions.get? f.key with
    | some existing =>
      if !isInstance then
        bail location (.functionExists f.name (← locate existing.decl).line)
      modifySymbols fun s => { s with declaredKeys := s.declaredKeys.insert id f.key }
    | none => register decl owner f location
    return some f.key
  | _ => bail location .expectedFunction

/-- The aggregate that a declaration extends. -/
def resolveBase (name : String) (decl : AggregateDecl) (location : Location) :
    CompileM (Option String) := do
  match decl.base with
  | none => return none
  | some base =>
    let type ← resolveType base location
    match type.aggregateName? with
    | none => bail location (.extendsNonAggregate name type.canonical)
    | some base =>
      if base == name then bail location (.extendsItself name)
      ensureChecked base location
      return some base

/-- The fields that an aggregate declares itself, resolved; `seen` holds the names before them. -/
def resolveFields (owner : String) (location : Location) :
    List FieldDecl → List String → CompileM (List FieldSymbol)
  | [], _ => return []
  | field :: rest, seen => do
    if seen.contains field.name then bail location (.fieldTwice field.name owner)
    let type ← resolveType field.type location
    if type.isVoid then bail location (.voidField field.name owner)
    if type.aggregateName? == some owner then bail location (.containsItself owner)
    let rest ← resolveFields owner location rest (field.name :: seen)
    return { name := field.name, type, index := 0, default := field.default } :: rest

/-- All fields of an aggregate: the inherited ones that it does not declare again, in the order of the
base, then its own. -/
def collectFields (name : String) (decl : AggregateDecl) (base : Option String)
    (location : Location) : CompileM (List FieldSymbol) := do
  let c ← get
  let inherited := ((base.bind c.symbols.aggregates.get?).map (·.fields)).getD []
  let kept := inherited.filter fun field => !decl.fields.any (·.name == field.name)
  return numberFields (kept ++ (← resolveFields name location decl.fields []))

/-- The function declaration at a node that is one. -/
def functionDecl? (id : NodeId) : CompileM (Option FunctionDecl) := do
  match ← kindOf id with
  | .function decl => return some decl
  | _ => return none

/-- Checks a copy of a method for an extending aggregate, in the environment of the base. -/
def inheritMethod (name : String) (base : AggregateSymbol) (method : NodeId) :
    CompileM (Option String) := do
  let copy ← copySubtree method
  within base.subst base.space (checkFunction copy (some name) true)

/-- The keys of the methods that an aggregate takes over from its base. -/
def inheritMethods (name base : String) (decl : AggregateDecl) : CompileM (List String) := do
  let own ← decl.methods.filterMapM fun id => return (← functionDecl? id).map (·.name)
  match (← get).symbols.aggregates.get? base with
  | none => return []
  | some symbol =>
    let functions := (← get).symbols.functions
    let methods ← (symbol.methods.filterMap functions.get?).filterMapM fun f => do
      let inherits (d : FunctionDecl) := d.isInheritable && !own.contains d.name
      return if (← functionDecl? f.decl).any inherits then some f.decl else none
    methods.filterMapM (inheritMethod name symbol)

/-- Registers an aggregate template. -/
def registerAggregateTemplate (id : NodeId) (decl : AggregateDecl) (location : Location) :
    CompileM Unit := do
  let c ← get
  let name := c.qualify decl.name
  match c.symbols.aggregateTemplates.get? name with
  | some existing => bail location (.templateExists name (← locate existing.decl).line)
  | none =>
    modifySymbols fun s =>
      { s with aggregateTemplates := s.aggregateTemplates.insert name ⟨id, c.space⟩ }

/-- Registers an aggregate with its fields, methods and operators. -/
def registerAggregate (id : NodeId) (name : String) (decl : AggregateDecl) (isInstance : Bool)
    (location : Location) : CompileM Unit := do
  if let some existing := (← get).symbols.aggregates.get? name then
    bail location (.aggregateExists name (← locate existing.decl).line)
  let base ← resolveBase name decl location
  let fields ← collectFields name decl base location
  let c ← get
  modifySymbols (·.addAggregate
    { decl := id, name, fields, base, isInstance, space := c.space, subst := c.subst })
  let own ← decl.methods.filterMapM fun method => checkFunction method (some name) isInstance
  let inherited ←
    match base with
    | some base => inheritMethods name base decl
    | none => pure []
  if let some symbol := (← get).symbols.aggregates.get? name then
    modifySymbols fun s =>
      { s with aggregates := s.aggregates.insert name { symbol with methods := own ++ inherited } }

/-- Registers an aggregate and returns its canonical name; `instanceName` is given for the copy of a
template. -/
def checkAggregate (id : NodeId) (instanceName : Option String) : CompileM (Option String) := do
  let location ← locate id
  match ← kindOf id with
  | .aggregate decl =>
    if !(← beginCheck id) then return (← get).symbols.declaredNames.get? id
    if decl.isTemplate && instanceName.isNone then
      registerAggregateTemplate id decl location
      return none
    let name := instanceName.getD ((← get).qualify decl.name)
    registerAggregate id name decl instanceName.isSome location
    return some name
  | _ => bail location .expectedAggregate

def checkGlobal (id : NodeId) (decl : VariableDecl) (location : Location) : CompileM Unit := do
  let name := (← get).qualify decl.name
  if let some existing := (← get).symbols.globals.get? name then
    bail location (.variableExists name (← locate existing.decl).line)
  let value ← decl.init.mapM (foldRequired · "a global initializer")
  let type ←
    match decl.type, value with
    | some type, _ => resolveType type location
    | none, some value => pure value.type
    | none, none => bail location (.cannotInfer decl.name)
  if type.isVoid then bail location (.voidVariable decl.name)
  if decl.isConst && value.isNone then bail location (.constantWithoutValue decl.name)
  let symbol : GlobalSymbol :=
    { decl := id, name, linkName := LinkName.global name, type, isConst := decl.isConst, value }
  modifySymbols fun s => { s with globals := s.globals.insert name symbol }

def aliasEntry (location : Location) : AliasTarget → CompileM AliasEntry
  | .type type => return .type (← resolveType type location)
  | .value node => return .value (← foldRequired node "an alias")

def checkAlias (decl : AliasDecl) (location : Location) : CompileM Unit := do
  let name := (← get).qualify decl.name
  if (← get).symbols.aliases.contains name then bail location (.aliasExists name)
  let entry ← aliasEntry location decl.target
  modifySymbols fun s => { s with aliases := s.aliases.insert name entry }

/-- Checks a namespace; those around it count against the nesting limit. -/
def checkSpace (name : String) (items : List NodeId) (location : Location) : CompileM Unit := do
  let c ← get
  if c.options.maxNestingDepth ≤ c.space.length then bail location (.namespaceTooDeep name)
  inSpace name (items.forM fun item => perform (.checkNode item))

/-- Checks a declaration. -/
def checkNode (id : NodeId) : CompileM Unit := do
  let location ← locate id
  match ← kindOf id with
  | .function _ => discard (checkFunction id none false)
  | .aggregate _ => discard (checkAggregate id none)
  | .variable decl => if ← beginCheck id then checkGlobal id decl location
  | .alias decl => if ← beginCheck id then checkAlias decl location
  | .space name items => if ← beginCheck id then checkSpace name items location
  | .staticIf cond yes no =>
    if ← beginCheck id then
      match ← staticBranch cond yes no with
      | some branch => perform (.checkNode branch)
      | none => return
  | .block items => items.forM fun item => perform (.checkNode item)
  | .builtin name args => if ← beginCheck id then discard (evalBuiltin id name args)
  | _ => bail location .expectedDeclaration

end CompileM
end UnitCompiler
