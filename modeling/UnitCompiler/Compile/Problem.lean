import UnitCompiler.Compile.Options
import UnitCompiler.Ir.Verify
import UnitCompiler.Source.Location
import UnitCompiler.Tree.Operator
import UnitCompiler.Types.Conversion

/-!
# Problems of a unit

Why a unit is refused.  Types, keys and values are given by their texts.
-/

namespace UnitCompiler

inductive Problem where
  -- names and types
  | unknownType (name : String)
  | unknownAggregate (name : String)
  | unknownFunction (name : String)
  | unknownIdentifier (name : String)
  | unknownVariable (name : String)
  | typeTooDeep
  | arrayLengthUnknown (type : String)
  | invalidArrayLength (value : String)
  | containsItself (name : String)
  | dependsOnItself (name : String)
  | sizeUnknown (type : String)
  -- templates
  | instantiationDepth (limit : Nat)
  | unboundParameter (name : String)
  | unboundValue (name : String)
  | unboundArguments (type : String)
  | needsTemplateArguments (name : String)
  | requiresTemplateArguments (name : String)
  | notTemplate (name : String)
  | unknownFunctionTemplate (name : String)
  | unknownAggregateTemplate (name : String)
  | templateNotFunction (name : String)
  | templateNotAggregate (name : String)
  | notRegistered (instanceName : String)
  | templateArgumentCount (name : String) (expected got : Nat)
  | expectsInteger (param template value : String)
  | expectsType (param template value : String)
  | expectsValue (param template type : String)
  -- declarations
  | expectedDeclaration
  | expectedAggregate
  | expectedFunction
  | namespaceTooDeep (name : String)
  | variableExists (name : String) (line : Nat)
  | functionExists (name : String) (line : Nat)
  | aggregateExists (name : String) (line : Nat)
  | templateExists (name : String) (line : Nat)
  | aliasExists (name : String)
  | cannotInfer (name : String)
  | voidVariable (name : String)
  | constantWithoutValue (name : String)
  | extendsNonAggregate (name base : String)
  | extendsItself (name : String)
  | fieldTwice (field owner : String)
  | voidField (field owner : String)
  | destructorParameters (owner : String)
  | constructorReturnType (owner : String)
  | voidParameter (param function : String)
  | operatorOutside (name : String)
  | operatorWithoutOperands (name owner : String)
  | operatorExists (tag : OperatorTag) (owner signature : String)
  | genericMethod (name owner : String)
  -- constants
  | notConstant (what : String)
  | conditionNotBoolean (value : String)
  | constantDivisionByZero
  | shiftOutOfRange (count : Int) (kind : Scalar)
  -- builtins
  | unknownBuiltin (name : String)
  | builtinArgumentCount (name : String) (expected got : Nat)
  | expectedTypeArgument
  | expectedConstantArguments (name : String)
  | aliasExistsCount (got : Nat)
  | aliasExistsName
  | userError (message : String)
  -- resolution
  | noOverload (name types : String)
  | noMember (name owner : String)
  | missingOperator (owner : String) (tag : OperatorTag) (types : String)
  | ambiguousReference (name : String)
  -- parameter passing
  | unclassifiable (type reason : String)
  | notAggregate (type : String)
  | cannotMerge (type : String)
  -- emission of declarations
  | functionNotChecked (name : String)
  | aggregateNotChecked (name : String)
  | globalNotChecked
  | cannotInitialize (type value : String)
  | globalInitializer (value : String)
  | notFunction (name : String)
  | parameterTwice (param function : String)
  | stateLost (name : String)
  | noFunction
  -- expressions
  | expectedExpression
  | notAssignable
  | voidArgument
  | notCallable (type : String)
  | argumentCount (name : String) (expected got : Nat)
  | conversion (error : ConversionError)
  | typeMismatch (source target : String)
  | noConstructor (name : String) (arguments : Nat)
  | cannotDereference (type : String)
  | noMembers (type : String)
  | methodNotCalled (name owner : String)
  | indexNotInteger (type : String)
  | cannotIndex (type : String)
  | invalidOperand (op : UnaryOp) (type : String)
  | invalidOperands (op : BinaryOp) (left right : String)
  | cannotOverload (op : BinaryOp)
  | assignToConstant (type : String)
  | tooManyValues (name : String) (fields values : Nat)
  | emptyArrayLiteral
  | voidElements
  | notPointer (type : String)
  | notComparison (op : BinaryOp)
  | notCondition (type : String)
  | standInNotBool (owner positive : String) (tag : OperatorTag)
  -- statements
  | outsideLoop (word : String)
  | aliasInScope (name : String)
  | declarationInBody
  | blocksTooDeep
  | variableInScope (name : String)
  | returnInDefer
  | constructorReturnsValue
  | voidReturnsValue
  | mustReturnValue (type : String)
  | emptySwitch
  | foreachLength (type : String)
  | foreachNeedsLength (type : String)
  | cannotIterate (type : String)
  | deferInDefer

namespace Problem

def message : Problem → String
  | .unknownType name => s!"unknown type '{name}'"
  | .unknownAggregate name => s!"unknown aggregate '{name}'"
  | .unknownFunction name => s!"unknown function '{name}'"
  | .unknownIdentifier name => s!"unknown identifier '{name}'"
  | .unknownVariable name => s!"unknown variable '{name}'"
  | .typeTooDeep => "type is nested too deeply"
  | .arrayLengthUnknown type => s!"array length of '{type}' is not known"
  | .invalidArrayLength value => s!"invalid array length '{value}'"
  | .containsItself name => s!"aggregate '{name}' contains itself by value"
  | .dependsOnItself name => s!"aggregate '{name}' depends on itself"
  | .sizeUnknown type => s!"size of '{type}' is not known"
  | .instantiationDepth limit => s!"template instantiation depth exceeds {limit}"
  | .unboundParameter name => s!"template parameter '{name}' is not bound"
  | .unboundValue name => s!"template value '{name}' is not bound"
  | .unboundArguments type => s!"'{type}' has unbound template arguments"
  | .needsTemplateArguments name => s!"template function '{name}' needs explicit template arguments"
  | .requiresTemplateArguments name => s!"template '{name}' requires template arguments"
  | .notTemplate name => s!"'{name}' is not a template"
  | .unknownFunctionTemplate name => s!"unknown template function '{name}'"
  | .unknownAggregateTemplate name => s!"unknown template aggregate '{name}'"
  | .templateNotFunction name => s!"template '{name}' is not a function"
  | .templateNotAggregate name => s!"template '{name}' is not an aggregate"
  | .notRegistered instanceName => s!"instance '{instanceName}' was not registered"
  | .templateArgumentCount name expected got =>
    s!"'{name}' expects {expected} template arguments, got {got}"
  | .expectsInteger param template value =>
    s!"'{param}' of '{template}' expects an integer, got '{value}'"
  | .expectsType param template value => s!"'{param}' of '{template}' expects a type, got '{value}'"
  | .expectsValue param template type => s!"'{param}' of '{template}' expects a value, got '{type}'"
  | .expectedDeclaration => "expected a declaration"
  | .expectedAggregate => "expected an aggregate declaration"
  | .expectedFunction => "expected a function declaration"
  | .namespaceTooDeep name => s!"namespace '{name}' is nested too deeply"
  | .variableExists name line => s!"a variable with '{name}' name already exists on {line} line"
  | .functionExists name line => s!"a function with '{name}' name already exists on {line} line"
  | .aggregateExists name line => s!"an aggregate with '{name}' name already exists on {line} line"
  | .templateExists name line => s!"a template with '{name}' name already exists on {line} line"
  | .aliasExists name => s!"an alias named '{name}' already exists"
  | .cannotInfer name => s!"cannot infer the type of '{name}'"
  | .voidVariable name => s!"variable '{name}' cannot have type void"
  | .constantWithoutValue name => s!"constant '{name}' needs an initializer"
  | .extendsNonAggregate name base => s!"'{name}' cannot extend non-aggregate '{base}'"
  | .extendsItself name => s!"'{name}' cannot extend itself"
  | .fieldTwice field owner => s!"field '{field}' of '{owner}' is declared twice"
  | .voidField field owner => s!"field '{field}' of '{owner}' cannot be void"
  | .destructorParameters owner => s!"destructor of '{owner}' cannot take parameters"
  | .constructorReturnType owner => s!"constructor of '{owner}' cannot declare a return type"
  | .voidParameter param function => s!"parameter '{param}' of '{function}' cannot be void"
  | .operatorOutside name => s!"operator '{name}' must be declared inside an aggregate"
  | .operatorWithoutOperands name owner => s!"operator '{name}' of '{owner}' needs operands"
  | .operatorExists tag owner signature =>
    s!"operator '{tag.spelling}' of '{owner}' is already defined for {signature}"
  | .genericMethod name owner => s!"generic method '{name}' of '{owner}' is not supported"
  | .notConstant what => s!"{what} must be a compile-time constant"
  | .conditionNotBoolean value => s!"@if condition '{value}' is not a boolean"
  | .constantDivisionByZero => "division by zero in a constant expression"
  | .shiftOutOfRange count kind => s!"shift count {count} is out of range for '{kind.name}'"
  | .unknownBuiltin name => s!"unknown builtin '@{name}'"
  | .builtinArgumentCount name expected got => s!"@{name} expects {expected} arguments, got {got}"
  | .expectedTypeArgument => "expected a type argument"
  | .expectedConstantArguments name => s!"@{name} expects constant arguments"
  | .aliasExistsCount got => s!"@aliasExists expects 1 argument, got {got}"
  | .aliasExistsName => "@aliasExists expects a name"
  | .userError message => message
  | .noOverload name types => s!"no overload of '{name}' takes ({types})"
  | .noMember name owner => s!"no such member '{name}' in '{owner}'"
  | .missingOperator owner tag types =>
    s!"missing operator overload '{owner}{tag.spelling}' for ({types})"
  | .ambiguousReference name => s!"reference to overloaded function '{name}' is ambiguous"
  | .unclassifiable type reason => s!"unclassifiable ABI shape for '{type}': {reason}"
  | .notAggregate type => s!"'{type}' is not an aggregate"
  | .cannotMerge type => s!"'{type}' cannot be merged into a register"
  | .functionNotChecked name => s!"function '{name}' was not checked"
  | .aggregateNotChecked name => s!"aggregate '{name}' was not checked"
  | .globalNotChecked => "global was not checked"
  | .cannotInitialize type value => s!"cannot initialize '{type}' with '{value}'"
  | .globalInitializer value => s!"global cannot be initialized with '{value}'"
  | .notFunction name => s!"'{name}' is not a function"
  | .parameterTwice param function => s!"parameter '{param}' of '{function}' is declared twice"
  | .stateLost name => s!"function state of '{name}' was lost"
  | .noFunction => "no function is being emitted"
  | .expectedExpression => "expected an expression"
  | .notAssignable => "expression is not assignable"
  | .voidArgument => "a void value cannot be passed as an argument"
  | .notCallable type => s!"'{type}' is not callable"
  | .argumentCount name expected got => s!"'{name}' expects {expected} arguments, got {got}"
  | .conversion error => error.message
  | .typeMismatch source target => s!"type mismatch: cannot convert '{source}' to '{target}'"
  | .noConstructor name arguments => s!"'{name}' has no constructor taking {arguments} arguments"
  | .cannotDereference type => s!"cannot dereference '{type}'"
  | .noMembers type => s!"'{type}' has no members"
  | .methodNotCalled name owner => s!"method '{name}' of '{owner}' must be called"
  | .indexNotInteger type => s!"index must be an integer, got '{type}'"
  | .cannotIndex type => s!"cannot index '{type}'"
  | .invalidOperand op type => s!"invalid operand to '{op.spelling}': '{type}'"
  | .invalidOperands op left right => s!"invalid operands to '{op.spelling}': '{left}' and '{right}'"
  | .cannotOverload op => s!"operator '{op.spelling}' cannot be overloaded"
  | .assignToConstant type => s!"cannot assign to a constant of type '{type}'"
  | .tooManyValues name fields values => s!"'{name}' has {fields} fields, got {values} values"
  | .emptyArrayLiteral => "an array literal needs at least one element"
  | .voidElements => "array elements cannot be void"
  | .notPointer type => s!"'{type}' is not a pointer"
  | .notComparison op => s!"'{op.spelling}' is not a comparison"
  | .notCondition type => s!"'{type}' cannot be used as a condition"
  | .standInNotBool owner positive tag =>
    s!"operator '{owner}{positive}' must return bool to stand in for '{tag.spelling}'"
  | .outsideLoop word => s!"'{word}' outside of a loop"
  | .aliasInScope name => s!"an alias named '{name}' already exists in this scope"
  | .declarationInBody => "declarations are not allowed inside function bodies"
  | .blocksTooDeep => "blocks are nested too deeply"
  | .variableInScope name => s!"variable '{name}' is already declared in this scope"
  | .returnInDefer => "'return' is not allowed in a deferred statement"
  | .constructorReturnsValue => "a constructor cannot return a value"
  | .voidReturnsValue => "a void function cannot return a value"
  | .mustReturnValue type => s!"function must return a value of type '{type}'"
  | .emptySwitch => "at least 1 case is required in 'switch'"
  | .foreachLength type => s!"'foreach' length must be an integer, got '{type}'"
  | .foreachNeedsLength type => s!"'foreach' over '{type}' needs a length"
  | .cannotIterate type => s!"cannot iterate over '{type}'"
  | .deferInDefer => "'defer' cannot appear in a deferred statement"

end Problem

/-- An error that ends a phase. -/
inductive CompileError where
  /-- A problem at a place of the source. -/
  | semantic (location : Location) (problem : Problem)
  /-- A lowered function that breaks a rule, with its listing. -/
  | backend (function : String) (defect : Defect) (listing : String)
  | config (problem : OptionsProblem)
  /-- A problem without a place. -/
  | internal (problem : Problem)

namespace CompileError

/-- The message without its place. -/
def detail : CompileError → String
  | .semantic _ problem => problem.message
  | .backend _ defect _ => defect.message
  | .config problem => problem.message
  | .internal problem => problem.message

def line? : CompileError → Option Nat
  | .semantic location _ => some location.line
  | _ => none

def message (e : CompileError) : String :=
  match e with
  | .semantic location _ => "Error in " ++ location.text ++ ": " ++ e.detail
  | .backend function _ listing =>
    "Backend verification failed for '" ++ function ++ "': " ++ e.detail ++ "\n" ++ listing
  | .config _ => "Configuration error: " ++ e.detail
  | .internal _ => "Generic error: " ++ e.detail

end CompileError
end UnitCompiler
