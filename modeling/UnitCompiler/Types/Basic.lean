import UnitCompiler.Number.Numeral
import UnitCompiler.Text.Quoted
import UnitCompiler.Types.Scalar

/-!
# Source types and compile-time values

Types as the source writes them.  A type is identified by its canonical text, in which constness and
aliases leave no trace.
-/

namespace UnitCompiler

/-- The number of a node in the tree of its unit. -/
structure NodeId where
  index : Nat
deriving DecidableEq, Repr, Inhabited

/-- A value known when the unit is compiled. -/
inductive ConstValue where
  | int (value : Int) (kind : Scalar)
  | float (value : Double) (kind : Scalar)
  | bool (value : Bool)
  | str (value : String)
  | null
deriving DecidableEq, Repr, Inhabited

/-- The length of an array: a number, a template value, or an expression to be folded. -/
inductive ArrayLength where
  | fixed (length : Nat)
  | param (name : String)
  | expr (node : NodeId)
deriving DecidableEq, Repr

mutual

/-- A type as written.  A bare name that is no keyword is an aggregate without arguments until it is
resolved. -/
inductive SourceType where
  | void
  | scalar (kind : Scalar)
  | pointer (target : SourceType)
  | array (element : SourceType) (length : ArrayLength)
  | aggregate (name : String) (args : List TemplateArg)
  | const (inner : SourceType)
  | function (ret : SourceType) (params : List SourceType) (variadic : Bool)
  | templateParam (name : String)
  | alias (name : String) (target : SourceType)

/-- An argument of a generic name. -/
inductive TemplateArg where
  | type (type : SourceType)
  | value (value : ConstValue)

end

instance : Inhabited SourceType := ⟨.void⟩

/-- The shape of a function type. -/
structure FunctionType where
  ret : SourceType
  params : List SourceType
  variadic : Bool

def FunctionType.toType (f : FunctionType) : SourceType := .function f.ret f.params f.variadic

namespace ConstValue

/-- An integer literal. -/
def ofInt (value : Int) : ConstValue := .int value (Scalar.forLiteral value)

def type : ConstValue → SourceType
  | .int _ kind | .float _ kind => .scalar kind
  | .bool _ => .scalar .bool
  | .str _ => .pointer (.scalar .char)
  | .null => .pointer .void

def toInt? : ConstValue → Option Int
  | .int value _ => some value
  | .bool value => some (if value then 1 else 0)
  | _ => none

def toDouble? : ConstValue → Option Double
  | .float value _ => some value
  | .int value _ => some (Double.ofInt value)
  | _ => none

/-- The value as a condition; a string is none. -/
def truth? : ConstValue → Option Bool
  | .bool value => some value
  | .int value _ => some (value != 0)
  | .float value _ => some value.isNonzero
  | .null => some false
  | .str _ => none

def text : ConstValue → String
  | .int value _ => toString value
  | .float value _ => value.text
  | .bool value => if value then "true" else "false"
  | .str value => Text.quoted value
  | .null => "null"

end ConstValue

def ArrayLength.text : ArrayLength → String
  | .fixed length => toString length
  | .param name => name
  | .expr node => s!"#{node.index}"

namespace SourceType

def int : SourceType := .scalar .int

def bool : SourceType := .scalar .bool

def long : SourceType := .scalar .long

/-- The type a bare name stands for: a keyword's, or an aggregate still to be resolved. -/
def named (name : String) : SourceType :=
  if name == "void" then .void
  else
    match Scalar.ofName? name with
    | some kind => .scalar kind
    | none => .aggregate name []

mutual

/-- The text that identifies a type. -/
def canonical : SourceType → String
  | .void => "void"
  | .scalar kind => kind.name
  | .pointer target => canonical target ++ "*"
  | .array element length => canonical element ++ "[" ++ length.text ++ "]"
  | .aggregate name args =>
    if args.isEmpty then name else name ++ "<" ++ String.intercalate "," (argTexts args) ++ ">"
  | .const inner => canonical inner
  | .function ret params variadic =>
    let texts := typeTexts params ++ if variadic then ["..."] else []
    canonical ret ++ "(" ++ String.intercalate "," texts ++ ")"
  | .templateParam name => name
  | .alias _ target => canonical target

def argText : TemplateArg → String
  | .type type => canonical type
  | .value value => value.text

def argTexts : List TemplateArg → List String
  | [] => []
  | arg :: rest => argText arg :: argTexts rest

def typeTexts : List SourceType → List String
  | [] => []
  | type :: rest => canonical type :: typeTexts rest

end

/-- Two types are the same when their canonical texts are. -/
def sameAs (a b : SourceType) : Bool := a.canonical == b.canonical

/-- The type without const qualifiers and aliases around it. -/
def strip : SourceType → SourceType
  | .const inner => strip inner
  | .alias _ target => strip target
  | type => type

/-- What a pointer points to, an array holds or a const type qualifies. -/
def element? : SourceType → Option SourceType
  | .pointer inner | .array inner _ | .const inner => some inner
  | .alias _ target => element? target
  | _ => none

def scalar? (type : SourceType) : Option Scalar :=
  match type.strip with
  | .scalar kind => some kind
  | _ => none

/-- The canonical name of an aggregate type. -/
def aggregateName? (type : SourceType) : Option String :=
  match type.strip with
  | .aggregate name args => some (canonical (.aggregate name args))
  | _ => none

def isVoid (type : SourceType) : Bool := type.strip matches .void

def isConst : SourceType → Bool
  | .const _ => true
  | .alias _ target => isConst target
  | _ => false

def isScalar (type : SourceType) : Bool := type.scalar?.isSome

def isInteger (type : SourceType) : Bool := type.scalar?.any Scalar.isInteger

def isFloat (type : SourceType) : Bool := type.scalar?.any Scalar.isFloat

def isPointer (type : SourceType) : Bool := type.strip matches .pointer _

def isArray (type : SourceType) : Bool := type.strip matches .array ..

def isAggregate (type : SourceType) : Bool := type.strip matches .aggregate ..

def isFunction (type : SourceType) : Bool := type.strip matches .function ..

/-- The aggregate whose members the type gives access to, through at most one pointer. -/
def memberOwner? (type : SourceType) : Option String :=
  match type.strip with
  | .pointer inner => inner.aggregateName?
  | other => other.aggregateName?

mutual

def hasTemplateParams : SourceType → Bool
  | .templateParam _ => true
  | .pointer inner | .const inner => hasTemplateParams inner
  | .array inner length => (length matches .param _) || hasTemplateParams inner
  | .aggregate _ args => anyArgHasParams args
  | .function ret params _ => hasTemplateParams ret || anyHasParams params
  | .alias _ target => hasTemplateParams target
  | .void | .scalar _ => false

def argHasParams : TemplateArg → Bool
  | .type type => hasTemplateParams type
  | .value _ => false

def anyArgHasParams : List TemplateArg → Bool
  | [] => false
  | arg :: rest => argHasParams arg || anyArgHasParams rest

def anyHasParams : List SourceType → Bool
  | [] => false
  | type :: rest => hasTemplateParams type || anyHasParams rest

end

mutual

/-- Structural equality. -/
def beq : SourceType → SourceType → Bool
  | .void, .void => true
  | .scalar a, .scalar b => a == b
  | .pointer a, .pointer b => beq a b
  | .array a m, .array b n => beq a b && m == n
  | .aggregate a xs, .aggregate b ys => a == b && argsBeq xs ys
  | .const a, .const b => beq a b
  | .function a ps v, .function b qs w => beq a b && typesBeq ps qs && v == w
  | .templateParam a, .templateParam b => a == b
  | .alias a s, .alias b t => a == b && beq s t
  | _, _ => false

def argBeq : TemplateArg → TemplateArg → Bool
  | .type a, .type b => beq a b
  | .value a, .value b => a == b
  | _, _ => false

def argsBeq : List TemplateArg → List TemplateArg → Bool
  | [], [] => true
  | a :: xs, b :: ys => argBeq a b && argsBeq xs ys
  | _, _ => false

def typesBeq : List SourceType → List SourceType → Bool
  | [], [] => true
  | a :: xs, b :: ys => beq a b && typesBeq xs ys
  | _, _ => false

end

@[simp] theorem strip_const (t : SourceType) : (SourceType.const t).strip = t.strip := rfl

@[simp] theorem strip_alias (n : String) (t : SourceType) :
    (SourceType.alias n t).strip = t.strip := rfl

/-- Stripping a type leaves its canonical text alone. -/
theorem canonical_strip (t : SourceType) : t.strip.canonical = t.canonical := by
  match t with
  | .const inner => simpa [canonical] using canonical_strip inner
  | .alias _ target => simpa [canonical] using canonical_strip target
  | .void | .scalar _ | .pointer _ | .array .. | .aggregate .. | .function .. | .templateParam _ => rfl

end SourceType

def TemplateArg.text (arg : TemplateArg) : String := SourceType.argText arg

end UnitCompiler
