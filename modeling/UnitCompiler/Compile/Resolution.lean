import UnitCompiler.Compile.Context

/-!
# Resolution of names

Free-function overloads, members and operators.  A single candidate is taken as it is; of several, the
one whose signature is that of the arguments.
-/

namespace UnitCompiler

def typeList (types : List SourceType) : String :=
  String.intercalate ", " (types.map (·.canonical))

/-- What a member name refers to. -/
inductive Member where
  | methods (keys : List String)
  | field (field : FieldSymbol)

/-- The function that an operator calls, and whether its result is negated. -/
structure OperatorTarget where
  key : String
  isNegated : Bool
deriving DecidableEq, Repr

namespace SymbolTables

def pickOverload (s : SymbolTables) (name : String) (keys : List String) (args : List SourceType) :
    Except Problem String :=
  match keys with
  | [key] => .ok key
  | keys =>
    let matching key := (s.functions.get? key).any (signature ·.params == signature args)
    match keys.find? matching with
    | some key => .ok key
    | none => .error (.noOverload name (typeList args))

/-- Methods are found before fields. -/
def member (s : SymbolTables) (owner name : String) : Except Problem Member :=
  match s.methodsOf owner name with
  | [] =>
    match s.field? owner name with
    | some field => .ok (.field field)
    | none => .error (.noMember name owner)
  | keys => .ok (.methods keys)

/-- The operator of `owner` for operands of the given types.  Where it is not defined, the negation of
its counterpart stands in. -/
def operator (s : SymbolTables) (owner : String) (tag : OperatorTag) (args : List SourceType) :
    Except Problem OperatorTarget :=
  match s.aggregates.get? owner with
  | none => .error (.unknownAggregate owner)
  | some aggregate =>
    let find tag := aggregate.operator? tag (signature args)
    match find tag, tag.negated?.bind find with
    | some key, _ => .ok ⟨key, false⟩
    | none, some key => .ok ⟨key, true⟩
    | none, none => .error (.missingOperator owner tag (typeList args))

end SymbolTables

namespace Context

/-- The overload keys of a name, searched from the innermost namespace outwards. -/
def overloads? (c : Context) (name : String) : Option (List String) :=
  (c.candidates name).findSome? fun candidate =>
    (c.symbols.overloads.get? candidate).filter (!·.isEmpty)

def resolveFunction (c : Context) (name : String) (args : List SourceType) :
    Except Problem String :=
  match c.overloads? name with
  | some keys => c.symbols.pickOverload name keys args
  | none =>
    if (c.candidates name).any c.symbols.templates.contains then
      .error (.needsTemplateArguments name)
    else .error (.unknownFunction name)

/-- The global variable a name refers to. -/
def global? (c : Context) (name : String) : Option GlobalSymbol :=
  (c.candidates name).findSome? c.symbols.globals.get?

/-- A local or global variable. -/
def isVariable (c : Context) (name : String) : Bool :=
  (c.localVar? name).isSome || (c.global? name).isSome

/-- The value that a global name is bound to at compile time: the first candidate that is an alias of
a value or a global decides. -/
def globalConst? (c : Context) : List String → Option ConstValue
  | [] => none
  | candidate :: rest =>
    match c.symbols.aliases.get? candidate, c.symbols.globals.get? candidate with
    | some (.value value), _ => some value
    | _, some global => if global.isConst then global.value else none
    | _, none => globalConst? c rest

/-- The value that a name is bound to at compile time: an alias, a template value or an initialized
constant.  A local variable hides them all. -/
def constant? (c : Context) (name : String) : Option ConstValue :=
  if (c.localVar? name).isSome then none
  else
    match c.localAlias? name, c.subst.values.get? name with
    | some (.value value), _ => some value
    | _, some value => some value
    | _, none => c.globalConst? (c.candidates name)

/-- The value that a bare template argument names. -/
def valueAlias? (c : Context) (name : String) : Option ConstValue :=
  match c.subst.values.get? name, c.localAlias? name with
  | some value, _ => some value
  | none, some (.value value) => some value
  | none, _ =>
    (c.candidates name).findSome? fun candidate =>
      match c.symbols.aliases.get? candidate with
      | some (.value value) => some value
      | _ => none

/-- Whether a name is a template parameter or an alias. -/
def aliasExists (c : Context) (name : String) : Bool :=
  c.subst.types.contains name || c.subst.values.contains name || (c.localAlias? name).isSome ||
    (c.candidates name).any c.symbols.aliases.contains

def functionTemplate? (c : Context) (name : String) : Option (String × DeclarationSite) :=
  (c.candidates name).findSome? fun candidate =>
    (c.symbols.templates.get? candidate).map (candidate, ·)

def aggregateTemplate? (c : Context) (name : String) : Option (String × DeclarationSite) :=
  (c.candidates name).findSome? fun candidate =>
    (c.symbols.aggregateTemplates.get? candidate).map (candidate, ·)

/-- What a bare type name means at one qualified spelling. -/
def namedAt (c : Context) (name candidate : String) : Option (Except Problem SourceType) :=
  match c.symbols.aliases.get? candidate with
  | some (.type target) => some (.ok (.alias candidate target))
  | _ =>
    if c.symbols.knowsAggregate candidate then some (.ok (.aggregate candidate []))
    else if c.symbols.aggregateTemplates.contains candidate then
      some (.error (.requiresTemplateArguments name))
    else none

/-- The type that a bare name stands for. -/
def resolveNamed (c : Context) (name : String) : Except Problem SourceType :=
  match c.subst.types.get? name, c.localAlias? name with
  | some type, _ => .ok type
  | none, some (.type target) => .ok (.alias name target)
  | none, _ => ((c.candidates name).findSome? (c.namedAt name)).getD (.error (.unknownType name))

end Context
end UnitCompiler
