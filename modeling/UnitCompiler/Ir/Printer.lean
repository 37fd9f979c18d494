import UnitCompiler.Ir.Program

/-!
# Listings

The text of a program, and the outline of an operation used in messages of the machine.
-/

namespace UnitCompiler

def boolText (b : Bool) : String := if b then "true" else "false"

def commaList (texts : List String) : String := String.intercalate ", " texts

namespace IrConstant

mutual

def text : IrConstant → String
  | .int value type => type.text ++ " " ++ toString value
  | .uint value type => type.text ++ " " ++ toString value
  | .float value type => type.text ++ " " ++ value.text
  | .bool value => "bool " ++ boolText value
  | .string value => "c" ++ Text.quoted value
  | .array items element =>
    "[" ++ toString items.length ++ " x " ++ element.text ++ "] \x7b " ++ commaList (texts items)
      ++ " \x7d"
  | .struct items type => "struct " ++ type.text ++ " \x7b " ++ commaList (texts items) ++ " \x7d"
  | .null type => "null " ++ type.text
  | .undef type => "undef " ++ type.text
  | .zero type => "zeroinitializer " ++ type.text

def texts : List IrConstant → List String
  | [] => []
  | item :: rest => text item :: texts rest

end

mutual

def outline : IrConstant → String
  | .int value type => "Int(" ++ toString value ++ ", " ++ type.outline ++ ")"
  | .uint value type => "UInt(" ++ toString value ++ ", " ++ type.outline ++ ")"
  | .float value type => "Float(" ++ value.text ++ ", " ++ type.outline ++ ")"
  | .bool value => "Bool(" ++ boolText value ++ ")"
  | .string value => "String(" ++ Text.quoted value ++ ")"
  | .array items element => "Array([" ++ commaList (outlines items) ++ "], " ++ element.outline ++ ")"
  | .struct items type => "Struct([" ++ commaList (outlines items) ++ "], " ++ type.outline ++ ")"
  | .null type => "Null(" ++ type.outline ++ ")"
  | .undef type => "Undef(" ++ type.outline ++ ")"
  | .zero type => "ZeroInitializer(" ++ type.outline ++ ")"

def outlines : List IrConstant → List String
  | [] => []
  | item :: rest => outline item :: outlines rest

end

end IrConstant

namespace Operand

def text : Operand → String
  | .register id => "%r" ++ toString id
  | .constant value => value.text
  | .global name _ => "@" ++ name
  | .function name => "@" ++ name
  | .argument index => "%arg" ++ toString index
  | .undef type => "undef " ++ type.text
  | .null type => "null " ++ type.text

def outline : Operand → String
  | .register id => "Register(" ++ toString id ++ ")"
  | .constant value => "Constant(" ++ value.outline ++ ")"
  | .global name type => "Global(" ++ Text.quoted name ++ ", " ++ type.outline ++ ")"
  | .function name => "Function(" ++ Text.quoted name ++ ")"
  | .argument index => "Local(" ++ toString index ++ ")"
  | .undef type => "Undef(" ++ type.outline ++ ")"
  | .null type => "Null(" ++ type.outline ++ ")"

end Operand

namespace ArithOp

def text : ArithOp → String
  | .add => "add"
  | .sub => "sub"
  | .mul => "mul"
  | .div => "div"
  | .udiv => "udiv"
  | .rem => "rem"
  | .urem => "urem"
  | .and => "and"
  | .or => "or"
  | .xor => "xor"
  | .shl => "shl"
  | .shr => "shr"
  | .lshr => "lshr"

def outlineName : ArithOp → String
  | .add => "Add"
  | .sub => "Sub"
  | .mul => "Mul"
  | .div => "Div"
  | .udiv => "UDiv"
  | .rem => "Rem"
  | .urem => "URem"
  | .and => "And"
  | .or => "Or"
  | .xor => "Xor"
  | .shl => "Shl"
  | .shr => "Shr"
  | .lshr => "LShr"

/-- An arithmetic operation constructor by constructor. -/
def outline (op : ArithOp) (lhs rhs : Operand) : String :=
  op.outlineName ++ "(" ++ lhs.outline ++ ", " ++ rhs.outline ++ ")"

end ArithOp

def CompareOp.text : CompareOp → String
  | .eq => "eq"
  | .ne => "ne"
  | .lt => "lt"
  | .le => "le"
  | .gt => "gt"
  | .ge => "ge"
  | .ult => "ult"
  | .ule => "ule"
  | .ugt => "ugt"
  | .uge => "uge"

def ConvertOp.text : ConvertOp → String
  | .trunc => "trunc"
  | .zext => "zext"
  | .sext => "sext"
  | .fptrunc => "fptrunc"
  | .fpext => "fpext"
  | .fptosi => "fptosi"
  | .sitofp => "sitofp"
  | .bitcast => "bitcast"

def memoryFlags (align : Option Nat) (isVolatile : Bool) : String :=
  (match align with
    | some n => s!" align {n}"
    | none => "")
    ++ if isVolatile then " volatile" else ""

namespace Instruction

/-- An instruction without the type of its result. -/
def summary (i : Instruction) : String :=
  let target := "%r" ++ toString i.id ++ " = "
  match i.operation with
  | .arith op lhs rhs => target ++ op.text ++ " " ++ lhs.text ++ ", " ++ rhs.text
  | .compare op lhs rhs => target ++ op.text ++ " " ++ lhs.text ++ ", " ++ rhs.text
  | .neg value => target ++ "neg " ++ value.text
  | .not value => target ++ "not " ++ value.text
  | .load address align isVolatile =>
    target ++ "load " ++ address.text ++ memoryFlags align isVolatile
  | .store value address align isVolatile =>
    "store " ++ value.text ++ ", " ++ address.text ++ memoryFlags align isVolatile
  | .alloca type align => target ++ "alloca " ++ type.text ++ " align " ++ toString align
  | .elementPtr base indices inbounds =>
    let shown := if indices.isEmpty then "" else " [" ++ commaList (indices.map Operand.text) ++ "]"
    target ++ (if inbounds then "gep inbounds " else "gep ") ++ base.text ++ shown
  | .ptrToInt value => target ++ "ptrtoint " ++ value.text
  | .intToPtr value => target ++ "inttoptr " ++ value.text
  | .convert op value type => target ++ op.text ++ " " ++ value.text ++ " to " ++ type.text
  | .extract aggregate indices =>
    target ++ "extractvalue " ++ aggregate.text ++ ", [" ++ commaList (indices.map toString) ++ "]"
  | .insert aggregate element indices =>
    target ++ "insertvalue " ++ aggregate.text ++ ", " ++ element.text ++ ", ["
      ++ commaList (indices.map toString) ++ "]"
  | .call callee args convention isTail =>
    (if isTail then "tail " else "") ++ target ++ "call " ++ convention.text ++ " " ++ callee.text
      ++ "(" ++ commaList (args.map Operand.text) ++ ")"

def text (i : Instruction) : String :=
  match i.type with
  | some type => i.summary ++ " : " ++ type.text
  | none => i.summary

end Instruction

def Terminator.text : Terminator → String
  | .ret (some value) => "ret " ++ value.text
  | .ret none => "ret void"
  | .br target => s!"br bb{target}"
  | .condBr condition ifTrue ifFalse =>
    "condbr " ++ condition.text ++ s!", bb{ifTrue}, bb{ifFalse}"
  | .unreachable => "unreachable"

/-- The blanks before a line at some depth. -/
def indent (depth : Nat) : String := String.ofList (List.replicate (4 * depth) ' ')

namespace Block

def header (b : Block) : String :=
  let label :=
    match b.label with
    | some text => " // label: " ++ text
    | none => ""
  let preds :=
    if b.predecessors.isEmpty then ""
    else " // preds: [" ++ commaList (b.predecessors.map fun id => s!"bb{id}") ++ "]"
  s!"bb{b.id}" ++ label ++ preds ++ ":"

/-- The lines of a block. -/
def lines (depth : Nat) (b : Block) : List String :=
  let last :=
    match b.terminator with
    | some t => t.text
    | none => "<missing>"
  (indent depth ++ b.header)
    :: (b.instructions.map fun i => indent (depth + 1) ++ i.text)
    ++ [indent (depth + 1) ++ "terminator: " ++ last]

end Block

def linesText (lines : List String) : String := String.join (lines.map (· ++ "\n"))

namespace IrFunction

def header (f : IrFunction) : String :=
  let params := f.signature.params.zipIdx.map fun (type, index) => s!"arg{index}: " ++ type.text
  let params := params ++ if f.signature.isVariadic then ["..."] else []
  (if f.isDeclaration then "declare " else "fn ") ++ f.name ++ "(" ++ commaList params ++ ") -> "
    ++ f.signature.ret.text ++ " [cc: " ++ f.convention.text ++ ", linkage: " ++ f.linkage.text ++ "]"

/-- The lines of a function. -/
def lines (depth : Nat) (f : IrFunction) : List String :=
  if f.isDeclaration then [indent depth ++ f.header]
  else
    (indent depth ++ f.header ++ " \x7b")
      :: (f.blocks.flatMap fun b => b.lines (depth + 1))
      ++ [indent depth ++ "\x7d"]

def text (f : IrFunction) : String := linesText (f.lines 0)

end IrFunction

def GlobalVariable.text (g : GlobalVariable) : String :=
  "@" ++ g.name ++ ": " ++ g.type.text ++ " [linkage: " ++ g.linkage.text ++ "] [visibility: "
    ++ (if g.isHidden then "hidden" else "default") ++ "]"
    ++ (if g.isConst then " const" else "")
    ++ (match g.align with
        | some n => s!" align {n}"
        | none => "")
    ++ (match g.initializer with
        | some value => " = " ++ value.text
        | none => "")

namespace Program

/-- A heading followed by its lines, or nothing when there are none. -/
def part (heading : String) (lines : List String) : List String :=
  if lines.isEmpty then [] else (indent 1 ++ heading) :: lines

def text (p : Program) : String :=
  let types := p.types.map fun t => indent 2 ++ "%" ++ t.name ++ " = " ++ t.type.definitionText
  let globals := p.globals.map fun g => indent 2 ++ g.text
  let functions := ([""] : List String).intercalate (p.functions.map (IrFunction.lines 2))
  linesText
    (["lir::Program \x7b"] ++ part "types:" types ++ part "globals:" globals
      ++ part "functions:" functions ++ ["\x7d"])

end Program
end UnitCompiler
