import UnitCompiler.Compile.Folding
import UnitCompiler.Compile.TypeResolution

/-!
# Evaluation at compile time

Constant folding of nodes, the builtins, and the choice between the branches of a static condition.
-/

namespace UnitCompiler
namespace CompileM

attribute [local instance (high)] instPowNat

/-- The size of a type as an `int`; a larger one is not known. -/
def constSizeOf (type : SourceType) (location : Location) : CompileM ConstValue := do
  let type ← resolveType type location
  perform (.complete type location)
  match (← get).sizeOf? type with
  | some bytes =>
    if bytes < 2 ^ (31 : Nat) then return .int bytes .int
    else bail location (.sizeUnknown type.canonical)
  | none => bail location (.sizeUnknown type.canonical)

/-- A type given to a builtin, by itself or by its name. -/
def builtinType (location : Location) : BuiltinArg → CompileM SourceType
  | .type type => resolveType type location
  | .expr node => do
    match ← kindOf node with
    | .ident name _ => resolveType (SourceType.named name) location
    | _ => bail location .expectedTypeArgument

def builtinTypes (name : String) (args : List BuiltinArg) (count : Nat) (location : Location) :
    CompileM (List SourceType) := do
  if args.length ≠ count then bail location (.builtinArgumentCount name count args.length)
  args.mapM (builtinType location)

/-- The only type given to a builtin. -/
def onlyType (name : String) (args : List BuiltinArg) (location : Location) :
    CompileM SourceType := do
  return (← builtinTypes name args 1 location).headD .void

/-- The text of a message whose parts are constants. -/
def builtinMessage (name : String) (args : List BuiltinArg) (location : Location) :
    CompileM String := do
  let parts ← args.mapM fun
    | .type _ => bail location (.expectedConstantArguments name)
    | .expr node => do
      match ← foldRequired node "a message" with
      | .str text => return text
      | other => return other.text
  return String.join parts

/-- The name that is asked for by `@aliasExists`. -/
def aliasQuery (location : Location) : List BuiltinArg → CompileM String
  | [.type type] =>
    match type.bareName? with
    | some name => pure name
    | none => bail location .aliasExistsName
  | [.expr node] => do
    match ← kindOf node with
    | .ident name _ => return name
    | _ => bail location .aliasExistsName
  | args => bail location (.aliasExistsCount args.length)

/-- The builtins that ask for a property of a type. -/
def typePredicate? : String → Option (SourceType → Bool)
  | "isNumeric" => some SourceType.isScalar
  | "isFloat" => some SourceType.isFloat
  | "isPointer" => some SourceType.isPointer
  | "isArray" => some SourceType.isArray
  | "isStructure" => some SourceType.isAggregate
  | _ => none

/-- Whether the two types given to a builtin are the same. -/
def sameTypes (name : String) (args : List BuiltinArg) (location : Location) : CompileM Bool := do
  match ← builtinTypes name args 2 location with
  | [a, b] => return a.sameAs b
  | _ => return false

/-- The value of a builtin.  A warning has none, and an error ends the unit. -/
def evalBuiltin (id : NodeId) (name : String) (args : List BuiltinArg) :
    CompileM (Option ConstValue) := do
  let location ← locate id
  match typePredicate? name with
  | some holds => return some (.bool (holds (← onlyType name args location)))
  | none =>
    match name with
    | "sizeOf" => some <$> constSizeOf (← onlyType name args location) location
    | "tEquals" => return some (.bool (← sameTypes name args location))
    | "tNequals" => return some (.bool !(← sameTypes name args location))
    | "typeToString" => return some (.str (← onlyType name args location).canonical)
    | "aliasExists" =>
      let name ← aliasQuery location args
      return some (.bool ((← get).aliasExists name))
    | "warning" =>
      warn location (← builtinMessage name args location) "user-warning"
      return none
    | "error" => bail location (.userError (← builtinMessage name args location))
    | _ => bail location (.unknownBuiltin name)

/-- A logical operator; its right operand is looked at only when it decides. -/
def foldLogical (op : BinaryOp) (left : ConstValue) (rhs : NodeId) :
    CompileM (Option ConstValue) := do
  match left.truth? with
  | none => return none
  | some truth =>
    if truth == (op == .or) then return some (.bool truth)
    return ((← perform (.fold rhs)).bind ConstValue.truth?).map .bool

def foldBinaryNode (op : BinaryOp) (lhs rhs : NodeId) (location : Location) :
    CompileM (Option ConstValue) := do
  match ← perform (.fold lhs) with
  | none => return none
  | some left =>
    if op.isLogical then foldLogical op left rhs
    else
      match ← perform (.fold rhs) with
      | none => return none
      | some right => orBail location (ConstValue.foldBinary op left right)

/-- The value of a node at compile time; none when it depends on the run. -/
def foldNode (id : NodeId) : CompileM (Option ConstValue) := do
  let location ← locate id
  match ← kindOf id with
  | .int value => return some (ConstValue.ofInt value)
  | .float value => return some (.float value .double)
  | .bool value => return some (.bool value)
  | .char code => return some (.int code .char)
  | .str value => return some (.str value)
  | .null => return some .null
  | .ident name [] => return (← get).constant? name
  | .unary op operand => return (← perform (.fold operand)).bind (ConstValue.foldUnary op)
  | .binary op lhs rhs =>
    if op.isAssignment then return none else foldBinaryNode op lhs rhs location
  | .cast type value =>
    match ← perform (.fold value) with
    | some value => return value.convert (← resolveType type location)
    | none => return none
  | .sizeOf type => some <$> constSizeOf type location
  | .builtin name args => evalBuiltin id name args
  | _ => return none

/-- The branch that a static condition takes; none when it is absent. -/
def staticBranch (cond yes : NodeId) (no : Option NodeId) : CompileM (Option NodeId) := do
  let value ← foldRequired cond "an @if condition"
  match value.truth? with
  | some taken => return if taken then some yes else no
  | none => bail (← locate cond) (.conditionNotBoolean value.text)

end CompileM
end UnitCompiler
