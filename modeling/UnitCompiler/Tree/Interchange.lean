import UnitCompiler.Json.Printer
import UnitCompiler.Tree.Arena
import UnitCompiler.Types.Interchange

/-!
# Trees in JSON
-/

namespace UnitCompiler

open Json (ofOption tagged)

def NodeId.listToJson (ids : List NodeId) : Json := .array (ids.map NodeId.toJson)

def NodeId.listOfJson? (j : Json) : Option (List NodeId) := do (← j.list?).mapM NodeId.ofJson?

def NodeId.optionToJson (id : Option NodeId) : Json := ofOption NodeId.toJson id

def NodeId.optionOfJson? (j : Json) : Option (Option NodeId) := j.option? NodeId.ofJson?

/-- A constructor without payload, found by name. -/
def unitVariant? {α : Type} (ofName? : String → Option α) (j : Json) : Option α := do
  let (tag, payload) ← j.variant?
  let value ← ofName? tag
  if payload.isUnit then some value else none

def Span.toJson (s : Span) : Json :=
  .object [("file", Json.ofNat s.file), ("line", Json.ofNat s.line)]

def Span.ofJson? (j : Json) : Option Span := do
  let get ← j.fields? ["file", "line"]
  some ⟨← (get "file").nat32?, ← (get "line").nat32?⟩

namespace Modifier

def unitNames : List (Modifier × String) :=
  [(.cdecl64, "Cdecl64"), (.fastCall, "FastCc"), (.coldCall, "ColdCc"), (.plainName, "C"),
    (.variadic, "Vararg"), (.inline, "Inline"), (.noCopy, "NoCopy")]

def toJson : Modifier → Json
  | .linkName name => tagged "LinkName" (.string name)
  | m => .string (((unitNames.find? (·.1 == m)).map (·.2)).getD "")

def ofJson? (j : Json) : Option Modifier := do
  match ← j.variant? with
  | ("LinkName", .payload p) => (p.string?).map .linkName
  | (tag, p) => if p.isUnit then (unitNames.find? (·.2 == tag)).map (·.1) else none

end Modifier

namespace TemplateParam

def toJson (p : TemplateParam) : Json :=
  let kind :=
    match p.kind with
    | .type => .string "Type"
    | .value kind => tagged "Value" kind.toJson
  .object [("name", .string p.name), ("kind", kind)]

def kindOfJson? (j : Json) : Option TemplateParamKind := do
  match ← j.variant? with
  | ("Type", p) => if p.isUnit then some .type else none
  | ("Value", .payload p) => (Scalar.ofJson? p).map .value
  | _ => none

def ofJson? (j : Json) : Option TemplateParam := do
  let get ← j.fields? ["name", "kind"]
  some ⟨← (get "name").string?, ← kindOfJson? (get "kind")⟩

end TemplateParam

def Param.toJson (p : Param) : Json := .object [("name", .string p.name), ("ty", p.type.toJson)]

def Param.ofJson? (j : Json) : Option Param := do
  let get ← j.fields? ["name", "ty"]
  some ⟨← (get "name").string?, ← SourceType.ofJson? (get "ty")⟩

def FieldDecl.toJson (d : FieldDecl) : Json :=
  .object [("name", .string d.name), ("ty", d.type.toJson), ("default", NodeId.optionToJson d.default)]

def FieldDecl.ofJson? (j : Json) : Option FieldDecl := do
  let get ← j.fields? ["name", "ty", "default"]
  some ⟨← (get "name").string?, ← SourceType.ofJson? (get "ty"), ← NodeId.optionOfJson? (get "default")⟩

def FunctionDecl.toJson (d : FunctionDecl) : Json :=
  .object
    [("name", .string d.name), ("params", .array (d.params.map Param.toJson)), ("ret", d.ret.toJson),
      ("body", NodeId.optionToJson d.body), ("modifiers", .array (d.modifiers.map Modifier.toJson)),
      ("template_params", .array (d.templateParams.map TemplateParam.toJson)),
      ("operator", ofOption (fun (t : OperatorTag) => .string t.name) d.operator)]

def FunctionDecl.ofJson? (j : Json) : Option FunctionDecl := do
  let get ← j.fields? ["name", "params", "ret", "body", "modifiers", "template_params", "operator"]
  some
    { name := ← (get "name").string?
      params := ← (← (get "params").list?).mapM Param.ofJson?
      ret := ← SourceType.ofJson? (get "ret")
      body := ← NodeId.optionOfJson? (get "body")
      modifiers := ← (← (get "modifiers").list?).mapM Modifier.ofJson?
      templateParams := ← (← (get "template_params").list?).mapM TemplateParam.ofJson?
      operator := ← (get "operator").option? (unitVariant? OperatorTag.ofName?) }

def AggregateDecl.toJson (d : AggregateDecl) : Json :=
  .object
    [("name", .string d.name), ("template_params", .array (d.templateParams.map TemplateParam.toJson)),
      ("base", ofOption SourceType.toJson d.base), ("fields", .array (d.fields.map FieldDecl.toJson)),
      ("methods", NodeId.listToJson d.methods)]

def AggregateDecl.ofJson? (j : Json) : Option AggregateDecl := do
  let get ← j.fields? ["name", "template_params", "base", "fields", "methods"]
  some
    { name := ← (get "name").string?
      templateParams := ← (← (get "template_params").list?).mapM TemplateParam.ofJson?
      base := ← (get "base").option? SourceType.ofJson?
      fields := ← (← (get "fields").list?).mapM FieldDecl.ofJson?
      methods := ← NodeId.listOfJson? (get "methods") }

def VariableDecl.toJson (d : VariableDecl) : Json :=
  .object
    [("name", .string d.name), ("ty", ofOption SourceType.toJson d.type),
      ("init", NodeId.optionToJson d.init), ("is_const", .bool d.isConst)]

def VariableDecl.ofJson? (j : Json) : Option VariableDecl := do
  let get ← j.fields? ["name", "ty", "init", "is_const"]
  some ⟨← (get "name").string?, ← (get "ty").option? SourceType.ofJson?,
    ← NodeId.optionOfJson? (get "init"), ← (get "is_const").bool?⟩

def AliasDecl.toJson (d : AliasDecl) : Json :=
  let target :=
    match d.target with
    | .type t => tagged "Type" t.toJson
    | .value node => tagged "Value" node.toJson
  .object [("name", .string d.name), ("target", target)]

def AliasTarget.ofJson? (j : Json) : Option AliasTarget := do
  match ← j.variant? with
  | ("Type", .payload p) => (SourceType.ofJson? p).map .type
  | ("Value", .payload p) => (NodeId.ofJson? p).map .value
  | _ => none

def AliasDecl.ofJson? (j : Json) : Option AliasDecl := do
  let get ← j.fields? ["name", "target"]
  some ⟨← (get "name").string?, ← AliasTarget.ofJson? (get "target")⟩

def BuiltinArg.toJson : BuiltinArg → Json
  | .type t => tagged "Type" t.toJson
  | .expr node => tagged "Expr" node.toJson

def BuiltinArg.ofJson? (j : Json) : Option BuiltinArg := do
  match ← j.variant? with
  | ("Type", .payload p) => (SourceType.ofJson? p).map .type
  | ("Expr", .payload p) => (NodeId.ofJson? p).map .expr
  | _ => none

def SwitchCase.toJson (c : SwitchCase) : Json :=
  .object [("value", c.value.toJson), ("body", c.body.toJson)]

def SwitchCase.ofJson? (j : Json) : Option SwitchCase := do
  let get ← j.fields? ["value", "body"]
  some ⟨← NodeId.ofJson? (get "value"), ← NodeId.ofJson? (get "body")⟩

namespace NodeKind

def toJson : NodeKind → Json
  | .int value => tagged "Int" (Json.ofInt value)
  | .float value => tagged "Float" (Json.ofDouble value)
  | .bool value => tagged "Bool" (.bool value)
  | .char code => tagged "Char" (Json.ofNat code)
  | .str value => tagged "Str" (.string value)
  | .null => .string "Null"
  | .ident name args =>
    tagged "Ident"
      (.object [("name", .string name), ("template_args", .array (args.map TemplateArg.toJson))])
  | .unary op operand =>
    tagged "Unary" (.object [("op", .string op.name), ("operand", operand.toJson)])
  | .binary op lhs rhs =>
    tagged "Binary" (.object [("op", .string op.name), ("lhs", lhs.toJson), ("rhs", rhs.toJson)])
  | .get base name => tagged "Get" (.object [("base", base.toJson), ("name", .string name)])
  | .index base place => tagged "Index" (.object [("base", base.toJson), ("index", place.toJson)])
  | .call callee args =>
    tagged "Call" (.object [("callee", callee.toJson), ("args", NodeId.listToJson args)])
  | .cast type value => tagged "Cast" (.object [("ty", type.toJson), ("value", value.toJson)])
  | .sizeOf type => tagged "SizeOf" type.toJson
  | .arrayLit values => tagged "ArrayLit" (NodeId.listToJson values)
  | .aggregateLit type values =>
    tagged "AggregateLit" (.object [("ty", type.toJson), ("values", NodeId.listToJson values)])
  | .builtin name args =>
    tagged "Builtin"
      (.object [("name", .string name), ("args", .array (args.map BuiltinArg.toJson))])
  | .block items => tagged "Block" (NodeId.listToJson items)
  | .ifElse cond yes no => tagged "If" (branches cond yes no)
  | .whileLoop cond body =>
    tagged "While" (.object [("cond", cond.toJson), ("body", body.toJson)])
  | .forLoop init cond step body =>
    tagged "For"
      (.object
        [("init", NodeId.optionToJson init), ("cond", NodeId.optionToJson cond),
          ("step", NodeId.optionToJson step), ("body", body.toJson)])
  | .foreach name data length body =>
    tagged "Foreach"
      (.object
        [("name", .string name), ("data", data.toJson), ("length", NodeId.optionToJson length),
          ("body", body.toJson)])
  | .switch value cases default =>
    tagged "Switch"
      (.object
        [("value", value.toJson), ("cases", .array (cases.map SwitchCase.toJson)),
          ("default", NodeId.optionToJson default)])
  | .breakLoop => .string "Break"
  | .continueLoop => .string "Continue"
  | .ret value => tagged "Return" (NodeId.optionToJson value)
  | .defer stmt => tagged "Defer" stmt.toJson
  | .destroy value => tagged "Destroy" value.toJson
  | .staticIf cond yes no => tagged "ComptimeIf" (branches cond yes no)
  | .variable decl => tagged "Var" decl.toJson
  | .function decl => tagged "Function" decl.toJson
  | .aggregate decl => tagged "Aggregate" decl.toJson
  | .alias decl => tagged "Alias" decl.toJson
  | .space name items =>
    tagged "Namespace" (.object [("name", .string name), ("items", NodeId.listToJson items)])
where
  branches (cond yes : NodeId) (no : Option NodeId) : Json :=
    .object [("cond", cond.toJson), ("then", yes.toJson), ("otherwise", NodeId.optionToJson no)]

def branchesOfJson? (make : NodeId → NodeId → Option NodeId → NodeKind) (p : Json) :
    Option NodeKind := do
  let get ← p.fields? ["cond", "then", "otherwise"]
  some (make (← NodeId.ofJson? (get "cond")) (← NodeId.ofJson? (get "then"))
    (← NodeId.optionOfJson? (get "otherwise")))

/-- The node of a constructor with a payload. -/
def ofPayload? (tag : String) (p : Json) : Option NodeKind := do
  match tag with
  | "Int" => (p.int128?).map .int
  | "Float" => (p.double?).map .float
  | "Bool" => (p.bool?).map .bool
  | "Char" => (p.nat8?).map .char
  | "Str" => (p.string?).map .str
  | "Ident" =>
    let get ← p.fields? ["name", "template_args"]
    some (.ident (← (get "name").string?) (← (← (get "template_args").list?).mapM TemplateArg.ofJson?))
  | "Unary" =>
    let get ← p.fields? ["op", "operand"]
    some (.unary (← unitVariant? UnaryOp.ofName? (get "op")) (← NodeId.ofJson? (get "operand")))
  | "Binary" =>
    let get ← p.fields? ["op", "lhs", "rhs"]
    some (.binary (← unitVariant? BinaryOp.ofName? (get "op")) (← NodeId.ofJson? (get "lhs"))
      (← NodeId.ofJson? (get "rhs")))
  | "Get" =>
    let get ← p.fields? ["base", "name"]
    some (.get (← NodeId.ofJson? (get "base")) (← (get "name").string?))
  | "Index" =>
    let get ← p.fields? ["base", "index"]
    some (.index (← NodeId.ofJson? (get "base")) (← NodeId.ofJson? (get "index")))
  | "Call" =>
    let get ← p.fields? ["callee", "args"]
    some (.call (← NodeId.ofJson? (get "callee")) (← NodeId.listOfJson? (get "args")))
  | "Cast" =>
    let get ← p.fields? ["ty", "value"]
    some (.cast (← SourceType.ofJson? (get "ty")) (← NodeId.ofJson? (get "value")))
  | "SizeOf" => (SourceType.ofJson? p).map .sizeOf
  | "ArrayLit" => (NodeId.listOfJson? p).map .arrayLit
  | "AggregateLit" =>
    let get ← p.fields? ["ty", "values"]
    some (.aggregateLit (← SourceType.ofJson? (get "ty")) (← NodeId.listOfJson? (get "values")))
  | "Builtin" =>
    let get ← p.fields? ["name", "args"]
    some (.builtin (← (get "name").string?) (← (← (get "args").list?).mapM BuiltinArg.ofJson?))
  | "Block" => (NodeId.listOfJson? p).map .block
  | "If" => branchesOfJson? .ifElse p
  | "While" =>
    let get ← p.fields? ["cond", "body"]
    some (.whileLoop (← NodeId.ofJson? (get "cond")) (← NodeId.ofJson? (get "body")))
  | "For" =>
    let get ← p.fields? ["init", "cond", "step", "body"]
    some (.forLoop (← NodeId.optionOfJson? (get "init")) (← NodeId.optionOfJson? (get "cond"))
      (← NodeId.optionOfJson? (get "step")) (← NodeId.ofJson? (get "body")))
  | "Foreach" =>
    let get ← p.fields? ["name", "data", "length", "body"]
    some (.foreach (← (get "name").string?) (← NodeId.ofJson? (get "data"))
      (← NodeId.optionOfJson? (get "length")) (← NodeId.ofJson? (get "body")))
  | "Switch" =>
    let get ← p.fields? ["value", "cases", "default"]
    some (.switch (← NodeId.ofJson? (get "value")) (← (← (get "cases").list?).mapM SwitchCase.ofJson?)
      (← NodeId.optionOfJson? (get "default")))
  | "Return" => (NodeId.optionOfJson? p).map .ret
  | "Defer" => (NodeId.ofJson? p).map .defer
  | "Destroy" => (NodeId.ofJson? p).map .destroy
  | "ComptimeIf" => branchesOfJson? .staticIf p
  | "Var" => (VariableDecl.ofJson? p).map .variable
  | "Function" => (FunctionDecl.ofJson? p).map .function
  | "Aggregate" => (AggregateDecl.ofJson? p).map .aggregate
  | "Alias" => (AliasDecl.ofJson? p).map .alias
  | "Namespace" =>
    let get ← p.fields? ["name", "items"]
    some (.space (← (get "name").string?) (← NodeId.listOfJson? (get "items")))
  | _ => none

def ofJson? (j : Json) : Option NodeKind := do
  match ← j.variant? with
  | ("Null", p) => if p.isUnit then some .null else none
  | ("Break", p) => if p.isUnit then some .breakLoop else none
  | ("Continue", p) => if p.isUnit then some .continueLoop else none
  | (tag, .payload p) => ofPayload? tag p
  | (_, .absent) => none

end NodeKind

def Node.toJson (n : Node) : Json := .object [("kind", n.kind.toJson), ("span", n.span.toJson)]

def Node.ofJson? (j : Json) : Option Node := do
  let get ← j.fields? ["kind", "span"]
  some ⟨← NodeKind.ofJson? (get "kind"), ← Span.ofJson? (get "span")⟩

namespace FileTable

def toJson (t : FileTable) : Json := .object [("files", .array (t.files.map .string))]

def ofJson? (j : Json) : Option FileTable := do
  let get ← j.fields? ["files"]
  some ⟨← (← (get "files").list?).mapM Json.string?⟩

end FileTable

namespace Tree

def toJson (t : Tree) : Json :=
  .object [("nodes", .array (t.nodes.toList.map Node.toJson)), ("sources", t.files.toJson)]

def nodesOfJson? (j : Json) : Option (Array Node) := do
  some (← (← j.list?).mapM Node.ofJson?).toArray

/-- Reads a tree; the file table may be missing. -/
def ofJson? (j : Json) : Option Tree := do
  match j with
  | .object _ =>
    let nodes ← nodesOfJson? (← j.member? "nodes")
    match j.member? "sources" with
    | none => some { nodes }
    | some sources => some { nodes, files := ← FileTable.ofJson? sources }
  | .array [nodes] => some { nodes := ← nodesOfJson? nodes }
  | .array [nodes, sources] =>
    some { nodes := ← nodesOfJson? nodes, files := ← FileTable.ofJson? sources }
  | _ => none

/-- Whether writing the tree and reading it back gives a tree that is written alike. -/
def roundTrips (t : Tree) : Bool :=
  let text := t.toJson.text
  match (Json.parse text).bind ofJson? with
  | some back => back.toJson.text == text
  | none => false

end Tree
end UnitCompiler
