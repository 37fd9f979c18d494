import UnitCompiler.Source.Location
import UnitCompiler.Tree.Operator
import UnitCompiler.Types.Basic

/-!
# Nodes of a tree

Nodes refer to their children by number.
-/

namespace UnitCompiler

structure SwitchCase where
  value : NodeId
  body : NodeId
deriving DecidableEq, Repr

inductive BuiltinArg where
  | type (type : SourceType)
  | expr (node : NodeId)

/-- Properties a function is declared with. -/
inductive Modifier where
  /-- The calling convention of C on 64-bit machines. -/
  | cdecl64
  | fastCall
  | coldCall
  /-- Linked under its source name. -/
  | plainName
  | linkName (name : String)
  | variadic
  | inline
  /-- Not inherited by extending aggregates. -/
  | noCopy
deriving DecidableEq, Repr

inductive TemplateParamKind where
  | type
  | value (kind : Scalar)
deriving DecidableEq, Repr

structure TemplateParam where
  name : String
  kind : TemplateParamKind
deriving DecidableEq, Repr

structure Param where
  name : String
  type : SourceType

structure FunctionDecl where
  name : String
  params : List Param := []
  ret : SourceType
  /-- Absent for external functions. -/
  body : Option NodeId := none
  modifiers : List Modifier := []
  templateParams : List TemplateParam := []
  /-- Present on operator functions. -/
  operator : Option OperatorTag := none

structure FieldDecl where
  name : String
  type : SourceType
  /-- The value the field takes when none is given. -/
  default : Option NodeId

structure AggregateDecl where
  name : String
  templateParams : List TemplateParam := []
  base : Option SourceType := none
  fields : List FieldDecl := []
  methods : List NodeId := []

structure VariableDecl where
  name : String
  /-- Inferred from the initializer when absent. -/
  type : Option SourceType
  init : Option NodeId
  isConst : Bool

inductive AliasTarget where
  | type (type : SourceType)
  | value (node : NodeId)

structure AliasDecl where
  name : String
  target : AliasTarget

inductive NodeKind where
  | int (value : Int)
  | float (value : Double)
  | bool (value : Bool)
  | char (code : Nat)
  | str (value : String)
  | null
  | ident (name : String) (args : List TemplateArg)
  | unary (op : UnaryOp) (operand : NodeId)
  | binary (op : BinaryOp) (lhs rhs : NodeId)
  | get (base : NodeId) (name : String)
  | index (base place : NodeId)
  | call (callee : NodeId) (args : List NodeId)
  | cast (type : SourceType) (value : NodeId)
  | sizeOf (type : SourceType)
  | arrayLit (values : List NodeId)
  | aggregateLit (type : SourceType) (values : List NodeId)
  | builtin (name : String) (args : List BuiltinArg)
  | block (items : List NodeId)
  | ifElse (cond yes : NodeId) (no : Option NodeId)
  | whileLoop (cond body : NodeId)
  | forLoop (init cond step : Option NodeId) (body : NodeId)
  | foreach (name : String) (data : NodeId) (length : Option NodeId) (body : NodeId)
  | switch (value : NodeId) (cases : List SwitchCase) (default : Option NodeId)
  | breakLoop
  | continueLoop
  | ret (value : Option NodeId)
  | defer (stmt : NodeId)
  | destroy (value : NodeId)
  | staticIf (cond yes : NodeId) (no : Option NodeId)
  | variable (decl : VariableDecl)
  | function (decl : FunctionDecl)
  | aggregate (decl : AggregateDecl)
  | alias (decl : AliasDecl)
  | space (name : String) (items : List NodeId)

instance : Inhabited NodeKind := ⟨.null⟩

structure Node where
  kind : NodeKind
  span : Span
deriving Inhabited

namespace FunctionDecl

/-- The name every constructor is declared with. -/
def constructorName : String := "this"

def destructorName : String := "~this"

def hasModifier (d : FunctionDecl) (m : Modifier) : Bool := d.modifiers.contains m

def linkName? (d : FunctionDecl) : Option String :=
  d.modifiers.findSome? fun
    | .linkName name => some name
    | _ => none

def isTemplate (d : FunctionDecl) : Bool := !d.templateParams.isEmpty

/-- An operator function is named by the spelling of its tag. -/
def ofOperator (tag : OperatorTag) (ret : SourceType) : FunctionDecl :=
  { name := tag.spelling, ret, operator := some tag }

end FunctionDecl

def AggregateDecl.isTemplate (d : AggregateDecl) : Bool := !d.templateParams.isEmpty

namespace NodeKind

def isDeclaration : NodeKind → Bool
  | .function _ | .aggregate _ | .alias _ | .space .. => true
  | _ => false

section

variable {m : Type → Type} [Monad m] (f : NodeId → m NodeId)

def mapOption : Option NodeId → m (Option NodeId)
  | none => pure none
  | some id => some <$> f id

def mapCase (c : SwitchCase) : m SwitchCase := do
  let value ← f c.value
  let body ← f c.body
  pure ⟨value, body⟩

def mapBuiltinArg : BuiltinArg → m BuiltinArg
  | .type type => pure (.type type)
  | .expr node => .expr <$> f node

def mapField (d : FieldDecl) : m FieldDecl := do
  let default ← mapOption f d.default
  pure { d with default }

def mapAliasTarget : AliasTarget → m AliasTarget
  | .type type => pure (.type type)
  | .value node => .value <$> f node

/-- The node with `f` applied to every child, from left to right. -/
def mapChildren : NodeKind → m NodeKind
  | .unary op operand => .unary op <$> f operand
  | .binary op lhs rhs => do
    let lhs ← f lhs
    let rhs ← f rhs
    pure (.binary op lhs rhs)
  | .get base name => do
    let base ← f base
    pure (.get base name)
  | .index base place => do
    let base ← f base
    let place ← f place
    pure (.index base place)
  | .call callee args => do
    let callee ← f callee
    let args ← args.mapM f
    pure (.call callee args)
  | .cast type value => .cast type <$> f value
  | .arrayLit values => .arrayLit <$> values.mapM f
  | .aggregateLit type values => .aggregateLit type <$> values.mapM f
  | .builtin name args => .builtin name <$> args.mapM (mapBuiltinArg f)
  | .block items => .block <$> items.mapM f
  | .ifElse cond yes no => do
    let cond ← f cond
    let yes ← f yes
    let no ← mapOption f no
    pure (.ifElse cond yes no)
  | .whileLoop cond body => do
    let cond ← f cond
    let body ← f body
    pure (.whileLoop cond body)
  | .forLoop init cond step body => do
    let init ← mapOption f init
    let cond ← mapOption f cond
    let step ← mapOption f step
    let body ← f body
    pure (.forLoop init cond step body)
  | .foreach name data length body => do
    let data ← f data
    let length ← mapOption f length
    let body ← f body
    pure (.foreach name data length body)
  | .switch value cases default => do
    let value ← f value
    let cases ← cases.mapM (mapCase f)
    let default ← mapOption f default
    pure (.switch value cases default)
  | .ret value => .ret <$> mapOption f value
  | .defer stmt => .defer <$> f stmt
  | .destroy value => .destroy <$> f value
  | .staticIf cond yes no => do
    let cond ← f cond
    let yes ← f yes
    let no ← mapOption f no
    pure (.staticIf cond yes no)
  | .variable decl => do
    let init ← mapOption f decl.init
    pure (.variable { decl with init })
  | .function decl => do
    let body ← mapOption f decl.body
    pure (.function { decl with body })
  | .aggregate decl => do
    let fields ← decl.fields.mapM (mapField f)
    let methods ← decl.methods.mapM f
    pure (.aggregate { decl with fields, methods })
  | .alias decl => do
    let target ← mapAliasTarget f decl.target
    pure (.alias { decl with target })
  | .space name items => .space name <$> items.mapM f
  | kind => pure kind

end

end NodeKind
end UnitCompiler
