import UnitCompiler.Types.Basic

/-!
# Signatures and link names

The short encoding of parameter types that tells overloads apart, and the names functions and globals
are linked by.
-/

namespace UnitCompiler

namespace SourceType

mutual

/-- The short encoding of a type. -/
def encode : SourceType → String
  | .void => "v"
  | .scalar kind => kind.code
  | .pointer inner => "p" ++ encode inner
  | .array inner (.fixed length) => "a" ++ toString length ++ encode inner
  | .array inner _ => "a?" ++ encode inner
  | .aggregate name args => "s-" ++ canonical (.aggregate name args)
  | .function ret params variadic =>
    "F" ++ encode ret ++ "[" ++ encodeList params ++ "]" ++ if variadic then "V" else ""
  | .templateParam name => "t-" ++ name
  | .const inner | .alias _ inner => encode inner

/-- The encodings of a list of types, each behind an underscore. -/
def encodeList : List SourceType → String
  | [] => ""
  | type :: rest => "_" ++ encode type ++ encodeList rest

end

end SourceType

/-- The encodings of a parameter list, in brackets. -/
def signature (types : List SourceType) : String := "[" ++ SourceType.encodeList types ++ "]"

/-- The key of a function: its name followed by its signature. -/
def functionKey (name : String) (params : List SourceType) : String := name ++ signature params

namespace LinkName

def function (key : String) : String := s!"_EmF{key.utf8ByteSize}{key}"

def method (key : String) : String := s!"_EmM{key.utf8ByteSize}{key}"

def global (name : String) : String := s!"_EmG{name}"

end LinkName
end UnitCompiler
