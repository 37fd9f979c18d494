import UnitCompiler.Number.Word
import UnitCompiler.Table
import UnitCompiler.Types.Basic

/-!
# Substitution of template parameters

A substitution binds names to types and to values.  A bare name is a parameter when it is bound.
-/

namespace UnitCompiler

structure Substitution where
  types : Table String SourceType := {}
  values : Table String ConstValue := {}
deriving Inhabited

namespace Substitution

def empty : Substitution := {}

def bindType (s : Substitution) (name : String) (type : SourceType) : Substitution :=
  { s with types := s.types.insert name type }

def bindValue (s : Substitution) (name : String) (value : ConstValue) : Substitution :=
  { s with values := s.values.insert name value }

def size (s : Substitution) : Nat := s.types.size + s.values.size

end Substitution

/-- The length after substitution: a bound parameter with an integer value becomes that number, a
negative one zero. -/
def ArrayLength.substitute (s : Substitution) : ArrayLength → ArrayLength
  | .param name =>
    match (s.values.get? name).bind ConstValue.toInt? with
    | some value => .fixed (toU64 (max value 0))
    | none => .param name
  | length => length

/-- The name of an argument that is nothing but a name. -/
def TemplateArg.bareName? : TemplateArg → Option String
  | .type (.templateParam name) => some name
  | .type (.aggregate name []) => some name
  | _ => none

namespace SourceType

mutual

/-- The type with its bound names replaced. -/
def substitute (s : Substitution) : SourceType → SourceType
  | .templateParam name => (s.types.get? name).getD (.templateParam name)
  | .aggregate name args =>
    if args.isEmpty then (s.types.get? name).getD (.aggregate name args)
    else .aggregate name (substituteArgs s args)
  | .pointer inner => .pointer (substitute s inner)
  | .const inner => .const (substitute s inner)
  | .array inner length => .array (substitute s inner) (length.substitute s)
  | .function ret params variadic =>
    .function (substitute s ret) (substituteTypes s params) variadic
  | .alias name target => .alias name (substitute s target)
  | .void => .void
  | .scalar kind => .scalar kind

/-- An argument that is a name bound to a value becomes that value. -/
def substituteArg (s : Substitution) : TemplateArg → TemplateArg
  | .value value => .value value
  | .type type =>
    match ((TemplateArg.type type).bareName?).bind s.values.get? with
    | some value => .value value
    | none => .type (substitute s type)

def substituteArgs (s : Substitution) : List TemplateArg → List TemplateArg
  | [] => []
  | arg :: rest => substituteArg s arg :: substituteArgs s rest

def substituteTypes (s : Substitution) : List SourceType → List SourceType
  | [] => []
  | type :: rest => substitute s type :: substituteTypes s rest

end

end SourceType
end UnitCompiler
