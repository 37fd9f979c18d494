import UnitCompiler.Ir.Program
import UnitCompiler.Tree.Node
import UnitCompiler.Types.Layout
import UnitCompiler.Types.Signature
import UnitCompiler.Types.Substitution

/-!
# Symbol tables

What checking a unit records and emission reads.  Names are qualified; functions go by their keys,
which carry the parameter signature.
-/

namespace UnitCompiler

/-- A name qualified by the namespaces around it, outermost first. -/
def qualifyIn (space : List String) (name : String) : String :=
  String.intercalate "::" (space ++ [name])

theorem qualifyIn_nil (name : String) : qualifyIn [] name = name := rfl

structure FunctionSymbol where
  decl : NodeId
  /-- The qualified name, such as `math::add`, `Vec<int>.push` or `max<int>`. -/
  name : String
  key : String
  linkName : String
  /-- Resolved, with `this` first for a method. -/
  params : List SourceType
  paramNames : List String
  ret : SourceType
  isVariadic : Bool
  convention : CallingConvention
  /-- The aggregate of a method or an operator. -/
  owner : Option String
  /-- Present on constructors, which are called by the aggregate's name. -/
  constructorOf : Option String
  space : List String
  /-- Template instances and inherited copies. -/
  isInstance : Bool
  isExternal : Bool
  /-- The environment of the body. -/
  subst : Substitution

namespace FunctionSymbol

def functionType (f : FunctionSymbol) : FunctionType := ⟨f.ret, f.params, f.isVariadic⟩

def type (f : FunctionSymbol) : SourceType := f.functionType.toType

/-- A `main` without a result returns zero. -/
def returnsZero (f : FunctionSymbol) : Bool :=
  f.linkName == "main" && f.owner.isNone && f.ret.isVoid

end FunctionSymbol

structure FieldSymbol where
  name : String
  type : SourceType
  index : Nat
  default : Option NodeId

structure AggregateSymbol where
  decl : NodeId
  /-- The canonical name, such as `Point` or `Vec<int>`. -/
  name : String
  fields : List FieldSymbol
  base : Option String
  /-- Function keys by tag and by the signature of the operands. -/
  operators : Table OperatorTag (Table String String) := {}
  /-- The keys of its own and inherited methods. -/
  methods : List String := []
  isInstance : Bool
  space : List String
  subst : Substitution

namespace AggregateSymbol

def fieldTypes (a : AggregateSymbol) : List SourceType := a.fields.map (·.type)

def hasDefaults (a : AggregateSymbol) : Bool := a.fields.any (·.default.isSome)

def operator? (a : AggregateSymbol) (tag : OperatorTag) (operands : String) : Option String :=
  (a.operators.get? tag).bind (·.get? operands)

end AggregateSymbol

structure GlobalSymbol where
  decl : NodeId
  name : String
  linkName : String
  type : SourceType
  isConst : Bool
  value : Option ConstValue

inductive AliasEntry where
  | type (type : SourceType)
  | value (value : ConstValue)

/-- A declaration and the namespaces around it. -/
structure DeclarationSite where
  decl : NodeId
  space : List String

structure SymbolTables where
  functions : Table String FunctionSymbol := {}
  /-- The keys that share a name, in the order of their declarations. -/
  overloads : Table String (List String) := {}
  templates : Table String DeclarationSite := {}
  /-- Keys by the names of instances, such as `max<int>`. -/
  instances : Table String String := {}
  aggregates : Table String AggregateSymbol := {}
  aggregateTemplates : Table String DeclarationSite := {}
  /-- Aggregates that are known by name and checked on demand. -/
  declaredAggregates : Table String DeclarationSite := {}
  /-- The keys of an aggregate's methods of a name. -/
  methods : Table (String × String) (List String) := {}
  fields : Table (String × String) FieldSymbol := {}
  globals : Table String GlobalSymbol := {}
  aliases : Table String AliasEntry := {}
  declaredKeys : Table NodeId String := {}
  declaredNames : Table NodeId String := {}
deriving Inhabited

namespace SymbolTables

def overloadsOf (s : SymbolTables) (name : String) : List String := (s.overloads.get? name).getD []

def methodsOf (s : SymbolTables) (owner name : String) : List String :=
  (s.methods.get? (owner, name)).getD []

def field? (s : SymbolTables) (owner name : String) : Option FieldSymbol :=
  s.fields.get? (owner, name)

def isTemplate (s : SymbolTables) (name : String) : Bool :=
  s.templates.contains name || s.aggregateTemplates.contains name

def instance? (s : SymbolTables) (name : String) : Option FunctionSymbol :=
  (s.instances.get? name).bind s.functions.get?

/-- An aggregate that is checked or can be checked on demand. -/
def knowsAggregate (s : SymbolTables) (name : String) : Bool :=
  s.aggregates.contains name || s.declaredAggregates.contains name

def fieldTypes? (s : SymbolTables) (name : String) : Option (List SourceType) :=
  (s.aggregates.get? name).map (·.fieldTypes)

/-- The layout questions that the aggregate table answers. -/
def layoutSource (s : SymbolTables) (pointerBits : Nat) : LayoutSource :=
  ⟨pointerBits, s.fieldTypes?⟩

def addOverload (s : SymbolTables) (name key : String) : SymbolTables :=
  { s with overloads := s.overloads.update name [] (· ++ [key]) }

def addMethod (s : SymbolTables) (owner name key : String) : SymbolTables :=
  { s with methods := s.methods.update (owner, name) [] (· ++ [key]) }

def addField (s : SymbolTables) (owner : String) (field : FieldSymbol) : SymbolTables :=
  { s with fields := s.fields.insert (owner, field.name) field }

/-- The tables with a function entered under its key, its name and its declaration. -/
def addFunction (s : SymbolTables) (f : FunctionSymbol) : SymbolTables :=
  let s := s.addOverload f.name f.key
  { s with
    declaredKeys := s.declaredKeys.insert f.decl f.key
    functions := s.functions.insert f.key f }

/-- The tables with an aggregate and its fields entered. -/
def addAggregate (s : SymbolTables) (a : AggregateSymbol) : SymbolTables :=
  let s := a.fields.foldl (·.addField a.name) s
  { s with
    aggregates := s.aggregates.insert a.name a
    declaredNames := s.declaredNames.insert a.decl a.name }

/-- Entering fields changes their table only. -/
theorem foldl_addField (fields : List FieldSymbol) (owner : String) (s : SymbolTables) :
    fields.foldl (·.addField owner) s = { s with
      fields := fields.foldl (fun t field => t.insert (owner, field.name) field) s.fields } := by
  induction fields generalizing s with
  | nil => rfl
  | cons field rest ih => exact ih (s.addField owner field)

theorem addAggregate_eq (s : SymbolTables) (a : AggregateSymbol) : s.addAggregate a = { s with
    aggregates := s.aggregates.insert a.name a
    declaredNames := s.declaredNames.insert a.decl a.name
    fields := a.fields.foldl (fun t field => t.insert (a.name, field.name) field) s.fields } := by
  rw [addAggregate, foldl_addField]

theorem aggregates_addAggregate (s : SymbolTables) (a : AggregateSymbol) (name : String) :
    (s.addAggregate a).aggregates.get? name = if a.name = name then some a else s.aggregates.get? name := by
  rw [addAggregate_eq]
  exact Table.get?_insert _ _ _ _

theorem declaredNames_addAggregate (s : SymbolTables) (a : AggregateSymbol) (id : NodeId) :
    (s.addAggregate a).declaredNames.get? id =
      if a.decl = id then some a.name else s.declaredNames.get? id := by
  rw [addAggregate_eq]
  exact Table.get?_insert _ _ _ _

end SymbolTables
end UnitCompiler
