import UnitCompiler.Ir.Printer
import UnitCompiler.Json.Decoder

/-!
# Programs of the intermediate language in JSON

Reading only: an operation is an object with its name as the one member.  Integers of constants are
strings of decimal digits, floats the hexadecimal digits of their bits.
-/

namespace UnitCompiler

open Json

namespace IrType

def simple : List IrType :=
  [.i1, .i8, .i16, .i32, .i64, .i128, .f16, .bf16, .f32, .f64, .f128, .void]

/-- Reads a type; the depth of the document bounds the recursion. -/
def ofJsonWithin : Nat → Json → Option IrType
  | 0, _ => none
  | fuel + 1, j => do
    match ← j.variant? with
    | (name, .absent) => simple.find? (·.text == name)
    | ("ptr", .payload p) => (ofJsonWithin fuel p).map .ptr
    | ("array", .payload p) =>
      let (element, length) ← p.pair?
      some (.array (← ofJsonWithin fuel element) (← length.nat64?))
    | ("vec", .payload p) =>
      let (element, lanes) ← p.pair?
      some (.vector (← ofJsonWithin fuel element) (← lanes.nat32?))
    | ("struct", .payload p) =>
      let fields ← (← (← p.member? "fields").list?).mapM (ofJsonWithin fuel)
      let isPacked ← ((p.member? "packed").getD (.bool false)).bool?
      let name ← ((p.member? "name").getD .null).option? string?
      some (.struct fields isPacked name)
    | ("fn", .payload p) =>
      let ret ← ofJsonWithin fuel (← p.member? "ret")
      let params ← (← (← p.member? "params").list?).mapM (ofJsonWithin fuel)
      let isVariadic ← ((p.member? "variadic").getD (.bool false)).bool?
      some (.function ret params isVariadic)
    | _ => none

def ofJson? (j : Json) : Option IrType := ofJsonWithin (j.depth + 1) j

end IrType

namespace IrConstant

/-- Reads a constant; the depth of the document bounds the recursion. -/
def ofJsonWithin : Nat → Json → Option IrConstant
  | 0, _ => none
  | fuel + 1, j => do
    let (name, payload) ← j.variant?
    let p ←
      match payload with
      | .payload p => some p
      | .absent => none
    match name with
    | "int" =>
      let (value, type) ← p.pair?
      some (.int (← value.decimal?) (← IrType.ofJson? type))
    | "uint" =>
      let (value, type) ← p.pair?
      some (.uint (← value.nat64?) (← IrType.ofJson? type))
    | "float" =>
      let (value, type) ← p.pair?
      some (.float (← value.doubleBits?) (← IrType.ofJson? type))
    | "bool" => (p.bool?).map .bool
    | "str" => (p.string?).map .string
    | "array" =>
      let (items, element) ← p.pair?
      some (.array (← (← items.list?).mapM (ofJsonWithin fuel)) (← IrType.ofJson? element))
    | "struct" =>
      let (items, type) ← p.pair?
      some (.struct (← (← items.list?).mapM (ofJsonWithin fuel)) (← IrType.ofJson? type))
    | "null" => (IrType.ofJson? p).map .null
    | "undef" => (IrType.ofJson? p).map .undef
    | "zero" => (IrType.ofJson? p).map .zero
    | _ => none

def ofJson? (j : Json) : Option IrConstant := ofJsonWithin (j.depth + 1) j

end IrConstant

namespace Operand

def ofJson? (j : Json) : Option Operand := do
  match ← j.variant? with
  | ("reg", .payload p) => (p.nat32?).map .register
  | ("const", .payload p) => (IrConstant.ofJson? p).map .constant
  | ("global", .payload p) =>
    let (name, type) ← p.pair?
    some (.global (← name.string?) (← IrType.ofJson? type))
  | ("fn", .payload p) => (p.string?).map .function
  | ("arg", .payload p) => (p.nat32?).map .argument
  | ("undef", .payload p) => (IrType.ofJson? p).map .undef
  | ("null", .payload p) => (IrType.ofJson? p).map .null
  | _ => none

def listOfJson? (j : Json) : Option (List Operand) := do (← j.list?).mapM ofJson?

end Operand

namespace CallingConvention

def names : List (String × CallingConvention) :=
  [("c", .c), ("fast", .fast), ("cold", .cold), ("sysv", .sysV)]

def ofJson? (j : Json) : Option CallingConvention := do names.lookup (← j.string?)

end CallingConvention

namespace Linkage

def names : List (String × Linkage) :=
  [("external", .external), ("linkonce_any", .linkOnce), ("linkonce_odr", .linkOnceOdr),
    ("internal", .internal), ("private", .unitPrivate)]

def ofJson? (j : Json) : Option Linkage := do names.lookup (← j.string?)

end Linkage

namespace Operation

def arithOps : List ArithOp :=
  [.add, .sub, .mul, .div, .udiv, .rem, .urem, .and, .or, .xor, .shl, .shr, .lshr]

def compareOps : List CompareOp := [.eq, .ne, .lt, .le, .gt, .ge, .ult, .ule, .ugt, .uge]

def convertOps : List ConvertOp :=
  [.trunc, .zext, .sext, .fptrunc, .fpext, .fptosi, .sitofp, .bitcast]

/-- An operation on two operands. -/
def binaryOfJson? (name : String) (p : Json) : Option Operation := do
  let make ←
    match arithOps.find? (·.text == name), compareOps.find? (·.text == name) with
    | some op, _ => some (Operation.arith op)
    | none, some op => some (Operation.compare op)
    | none, none => none
  let (a, b) ← p.pair?
  some (make (← Operand.ofJson? a) (← Operand.ofJson? b))

/-- An operation on one operand. -/
def unaryOfJson? (name : String) (p : Json) : Option Operation := do
  let make ←
    match name with
    | "neg" => some Operation.neg
    | "not" => some .not
    | "ptrtoint" => some .ptrToInt
    | "inttoptr" => some .intToPtr
    | _ => none
  match p with
  | .array [a] => (Operand.ofJson? a).map make
  | _ => none

/-- A conversion to a type. -/
def convertOfJson? (name : String) (p : Json) : Option Operation := do
  let op ← convertOps.find? (·.text == name)
  let (a, type) ← p.pair?
  some (.convert op (← Operand.ofJson? a) (← IrType.ofJson? type))

/-- A member that counts as false when it is missing. -/
def flag? (p : Json) (name : String) : Option Bool := ((p.member? name).getD (.bool false)).bool?

def align? (p : Json) : Option (Option Nat) := ((p.member? "align").getD .null).option? nat32?

def indices? (j : Json) : Option (List Nat) := do (← j.list?).mapM nat32?

/-- The operations on memory and aggregates, and calls. -/
def otherOfJson? (name : String) (p : Json) : Option Operation := do
  match name with
  | "load" =>
    some (.load (← Operand.ofJson? (← p.member? "address")) (← align? p) (← flag? p "volatile"))
  | "store" =>
    some (.store (← Operand.ofJson? (← p.member? "value"))
      (← Operand.ofJson? (← p.member? "address")) (← align? p) (← flag? p "volatile"))
  | "alloca" => some (.alloca (← IrType.ofJson? (← p.member? "ty")) ((← align? p).getD 1))
  | "gep" =>
    some (.elementPtr (← Operand.ofJson? (← p.member? "ptr"))
      (← Operand.listOfJson? (← p.member? "indices")) (← flag? p "inbounds"))
  | "extract" =>
    let (a, path) ← p.pair?
    some (.extract (← Operand.ofJson? a) (← indices? path))
  | "insert" =>
    match p with
    | .array [a, element, path] =>
      some (.insert (← Operand.ofJson? a) (← Operand.ofJson? element) (← indices? path))
    | _ => none
  | "call" =>
    let convention ←
      match p.member? "cc" with
      | some cc => CallingConvention.ofJson? cc
      | none => some .c
    some (.call (← Operand.ofJson? (← p.member? "fn")) (← Operand.listOfJson? (← p.member? "args"))
      convention (← flag? p "tail"))
  | _ => none

def ofJson? (j : Json) : Option Operation := do
  match ← j.variant? with
  | (_, .absent) => none
  | (name, .payload p) =>
    (binaryOfJson? name p).or ((unaryOfJson? name p).or
      ((convertOfJson? name p).or (otherOfJson? name p)))

end Operation

def Terminator.ofJson? (j : Json) : Option Terminator := do
  match ← j.variant? with
  | ("ret", .absent) => some (.ret none)
  | ("ret", .payload p) => some (.ret (← p.option? Operand.ofJson?))
  | ("br", .payload p) => (p.nat32?).map .br
  | ("condbr", .payload (.array [v, a, b])) =>
    some (.condBr (← Operand.ofJson? v) (← a.nat32?) (← b.nat32?))
  | ("unreachable", .absent) => some .unreachable
  | _ => none

namespace GlobalVariable

def ofJson? (j : Json) : Option GlobalVariable := do
  let linkage ←
    match j.member? "linkage" with
    | some l => Linkage.ofJson? l
    | none => some .external
  return {
    name := ← (← j.member? "name").string?
    type := ← IrType.ofJson? (← j.member? "ty")
    initializer := ← ((j.member? "init").getD .null).option? IrConstant.ofJson?
    linkage
    isHidden := ← Operation.flag? j "hidden"
    isConst := ← Operation.flag? j "const"
    align := ← Operation.align? j }

end GlobalVariable
end UnitCompiler
