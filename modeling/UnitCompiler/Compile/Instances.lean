import UnitCompiler.Compile.TypeResolution

/-!
# Instances of function templates

Explicit template arguments are bound in a fresh environment, in which a copy of the template is
checked and emitted.
-/

namespace UnitCompiler

/-- An instance name without the namespaces of its template, which checking puts back. -/
def unqualified (space : List String) (name : String) : String :=
  if space.isEmpty then name
  else
    let qualifier := String.intercalate "::" space ++ "::"
    if name.startsWith qualifier then (name.drop qualifier.length).toString else name

namespace CompileM

/-- Emits a function instance now or, while checking, later. -/
def scheduleFunction (key : String) : CompileM Unit := do
  match (← get).phase with
  | .emit => perform (.emitFunction key)
  | .check => modify fun c => { c with pending := c.pending ++ [.function key] }

/-- Makes and checks the instance `name` of a function template. -/
def makeFunction (name : String) (site : DeclarationSite) (location : Location) :
    CompileM String := do
  let copy ← copySubtree site.decl
  modifyKind copy fun
    | .function decl =>
      .function { decl with name := unqualified site.space name, templateParams := [] }
    | kind => kind
  match ← perform (.checkFunction copy none true) with
  | none => bail location (.notRegistered name)
  | some key =>
    modifySymbols fun s => { s with instances := s.instances.insert name key }
    scheduleFunction key
    return key

/-- The key of a function template's instance, which is made on first use. -/
def instantiateFunction (name : String) (args : List TemplateArg) (location : Location) :
    CompileM String := do
  let c ← get
  match c.functionTemplate? name with
  | none =>
    if (c.overloads? name).isSome then bail location (.notTemplate name)
    else bail location (.unknownFunctionTemplate name)
  | some (qualified, site) =>
    let args ← resolveArgs location args 0
    let instanceName := qualified ++ "<" ++ String.intercalate "," (args.map (·.text)) ++ ">"
    match (← get).symbols.instances.get? instanceName with
    | some key => return key
    | none =>
      match ← kindOf site.decl with
      | .function decl =>
        let subst ← orBail location (bindParams qualified decl.templateParams args)
        instantiating subst site.space location (makeFunction instanceName site location)
      | _ => bail location (.templateNotFunction qualified)

/-- The aggregate that a generic call builds, when its name is an aggregate template's and no function
template's. -/
def constructedInstance (name : String) (args : List TemplateArg) (location : Location) :
    CompileM (Option String) := do
  let c ← get
  if (c.functionTemplate? name).isSome || (c.aggregateTemplate? name).isNone then return none
  return (← resolveType (.aggregate name args) location).aggregateName?

end CompileM
end UnitCompiler
