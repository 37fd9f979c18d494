import UnitCompiler.Json.Decoder
import UnitCompiler.Json.Parser
import UnitCompiler.Types.Basic

/-!
# Types and values in JSON

A constructor is written as an object with one member, or as a string when it has no payload.
-/

namespace UnitCompiler

def Scalar.toJson (kind : Scalar) : Json := .string kind.name

def Scalar.ofJson? (j : Json) : Option Scalar := do
  let (tag, payload) ← j.variant?
  let kind ← Scalar.ofName? tag
  if payload.isUnit then some kind else none

def NodeId.toJson (id : NodeId) : Json := Json.ofNat id.index

def NodeId.ofJson? (j : Json) : Option NodeId := (j.nat32?).map NodeId.mk

namespace ConstValue

def toJson : ConstValue → Json
  | .int value kind => .tagged "Int" (.array [Json.ofInt value, kind.toJson])
  | .float value kind => .tagged "Float" (.array [Json.ofDouble value, kind.toJson])
  | .bool value => .tagged "Bool" (.bool value)
  | .str value => .tagged "Str" (.string value)
  | .null => .string "Null"

def ofJson? (j : Json) : Option ConstValue := do
  match ← j.variant? with
  | ("Int", .payload p) =>
    let (value, kind) ← p.pair?
    some (.int (← value.int128?) (← Scalar.ofJson? kind))
  | ("Float", .payload p) =>
    let (value, kind) ← p.pair?
    some (.float (← value.double?) (← Scalar.ofJson? kind))
  | ("Bool", .payload p) => (p.bool?).map .bool
  | ("Str", .payload p) => (p.string?).map .str
  | ("Null", p) => if p.isUnit then some .null else none
  | _ => none

end ConstValue

namespace ArrayLength

def toJson : ArrayLength → Json
  | .fixed length => .tagged "Fixed" (Json.ofNat length)
  | .param name => .tagged "Param" (.string name)
  | .expr node => .tagged "Expr" node.toJson

def ofJson? (j : Json) : Option ArrayLength := do
  match ← j.variant? with
  | ("Fixed", .payload p) => (p.nat64?).map .fixed
  | ("Param", .payload p) => (p.string?).map .param
  | ("Expr", .payload p) => (NodeId.ofJson? p).map .expr
  | _ => none

end ArrayLength

namespace SourceType

mutual

def toJson : SourceType → Json
  | .void => .string "Void"
  | .scalar kind => .tagged "Scalar" kind.toJson
  | .pointer target => .tagged "Pointer" (toJson target)
  | .array element length => .tagged "Array" (.array [toJson element, length.toJson])
  | .aggregate name args =>
    .tagged "Aggregate" (.object [("name", .string name), ("args", .array (argsToJson args))])
  | .const inner => .tagged "Const" (toJson inner)
  | .function ret params variadic =>
    .tagged "Function"
      (.object [("ret", toJson ret), ("params", .array (typesToJson params)),
        ("variadic", .bool variadic)])
  | .templateParam name => .tagged "TemplateParam" (.string name)
  | .alias name target =>
    .tagged "Alias" (.object [("name", .string name), ("target", toJson target)])

def argToJson : TemplateArg → Json
  | .type type => .tagged "Type" (toJson type)
  | .value value => .tagged "Value" value.toJson

def argsToJson : List TemplateArg → List Json
  | [] => []
  | arg :: rest => argToJson arg :: argsToJson rest

def typesToJson : List SourceType → List Json
  | [] => []
  | type :: rest => toJson type :: typesToJson rest

end

mutual

/-- Reads a type; the depth of the document bounds the recursion. -/
def ofJsonWithin : Nat → Json → Option SourceType
  | 0, _ => none
  | fuel + 1, j => do
    match ← j.variant? with
    | ("Void", p) => if p.isUnit then some .void else none
    | ("Scalar", .payload p) => (Scalar.ofJson? p).map .scalar
    | ("Pointer", .payload p) => (ofJsonWithin fuel p).map .pointer
    | ("Array", .payload p) =>
      let (element, length) ← p.pair?
      some (.array (← ofJsonWithin fuel element) (← ArrayLength.ofJson? length))
    | ("Aggregate", .payload p) =>
      let get ← p.fields? ["name", "args"]
      some (.aggregate (← (get "name").string?) (← (← (get "args").list?).mapM (argOfJsonWithin fuel)))
    | ("Const", .payload p) => (ofJsonWithin fuel p).map .const
    | ("Function", .payload p) =>
      let get ← p.fields? ["ret", "params", "variadic"]
      some (.function (← ofJsonWithin fuel (get "ret"))
        (← (← (get "params").list?).mapM (ofJsonWithin fuel)) (← (get "variadic").bool?))
    | ("TemplateParam", .payload p) => (p.string?).map .templateParam
    | ("Alias", .payload p) =>
      let get ← p.fields? ["name", "target"]
      some (.alias (← (get "name").string?) (← ofJsonWithin fuel (get "target")))
    | _ => none

def argOfJsonWithin : Nat → Json → Option TemplateArg
  | 0, _ => none
  | fuel + 1, j => do
    match ← j.variant? with
    | ("Type", .payload p) => (ofJsonWithin fuel p).map .type
    | ("Value", .payload p) => (ConstValue.ofJson? p).map .value
    | _ => none

end

def ofJson? (j : Json) : Option SourceType := ofJsonWithin (j.depth + 1) j

end SourceType

def TemplateArg.toJson (arg : TemplateArg) : Json := SourceType.argToJson arg

def TemplateArg.ofJson? (j : Json) : Option TemplateArg := SourceType.argOfJsonWithin (j.depth + 1) j

end UnitCompiler
