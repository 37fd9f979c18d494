import UnitCompiler.Ir.Type
import UnitCompiler.Number.Numeral

/-!
# Programs of the intermediate language

A program is a list of functions over typed registers.  A function is a list of basic blocks, the
first one its entry; a function without blocks is only declared.
-/

namespace UnitCompiler

inductive CallingConvention where
  | c
  | fast
  | cold
  | sysV
deriving DecidableEq, Repr, Inhabited

def CallingConvention.text : CallingConvention → String
  | .c => "c"
  | .fast => "fast"
  | .cold => "cold"
  | .sysV => "x86_64_sysv"

inductive Linkage where
  | external
  | linkOnce
  | linkOnceOdr
  | internal
  | unitPrivate
deriving DecidableEq, Repr, Inhabited

def Linkage.text : Linkage → String
  | .external => "external"
  | .linkOnce => "linkonce"
  | .linkOnceOdr => "linkonce_odr"
  | .internal => "internal"
  | .unitPrivate => "private"

inductive IrConstant where
  | int (value : Int) (type : IrType)
  | uint (value : Nat) (type : IrType)
  | float (value : Double) (type : IrType)
  | bool (value : Bool)
  | string (value : String)
  | array (items : List IrConstant) (element : IrType)
  | struct (items : List IrConstant) (type : IrType)
  | null (type : IrType)
  | undef (type : IrType)
  | zero (type : IrType)

instance : Inhabited IrConstant := ⟨.bool false⟩

def IrConstant.type : IrConstant → IrType
  | .int _ type | .uint _ type | .float _ type | .null type | .undef type | .zero type
  | .struct _ type => type
  | .array items element => .array element items.length
  | .bool _ => .i1
  | .string value => .array .i8 (value.utf8ByteSize + 1)

/-- What an instruction works on. -/
inductive Operand where
  | register (id : Nat)
  | constant (value : IrConstant)
  /-- The address of a global; the type is the one of the global's value. -/
  | global (name : String) (type : IrType)
  | function (name : String)
  | argument (index : Nat)
  | undef (type : IrType)
  | null (type : IrType)

instance : Inhabited Operand := ⟨.undef .void⟩

inductive ArithOp where
  | add
  | sub
  | mul
  | div
  | udiv
  | rem
  | urem
  | and
  | or
  | xor
  | shl
  | shr
  | lshr
deriving DecidableEq, Repr

inductive CompareOp where
  | eq
  | ne
  | lt
  | le
  | gt
  | ge
  | ult
  | ule
  | ugt
  | uge
deriving DecidableEq, Repr

inductive ConvertOp where
  | trunc
  | zext
  | sext
  | fptrunc
  | fpext
  | fptosi
  | sitofp
  | bitcast
deriving DecidableEq, Repr

/-- What an instruction does. -/
inductive Operation where
  | arith (op : ArithOp) (lhs rhs : Operand)
  | compare (op : CompareOp) (lhs rhs : Operand)
  | neg (value : Operand)
  | not (value : Operand)
  | load (address : Operand) (align : Option Nat) (isVolatile : Bool)
  | store (value address : Operand) (align : Option Nat) (isVolatile : Bool)
  | alloca (type : IrType) (align : Nat)
  | elementPtr (base : Operand) (indices : List Operand) (inbounds : Bool)
  | ptrToInt (value : Operand)
  | intToPtr (value : Operand)
  | convert (op : ConvertOp) (value : Operand) (type : IrType)
  | extract (aggregate : Operand) (indices : List Nat)
  | insert (aggregate element : Operand) (indices : List Nat)
  | call (callee : Operand) (args : List Operand) (convention : CallingConvention) (isTail : Bool)

/-- An operation and the type of its result; without one, or with `void`, it has no result. -/
structure Instruction where
  id : Nat
  operation : Operation
  type : Option IrType := none

inductive Terminator where
  | ret (value : Option Operand)
  | br (target : Nat)
  | condBr (condition : Operand) (ifTrue ifFalse : Nat)
  | unreachable

def Terminator.successors : Terminator → List Nat
  | .br target => [target]
  | .condBr _ ifTrue ifFalse => [ifTrue, ifFalse]
  | .ret _ | .unreachable => []

structure Block where
  id : Nat
  label : Option String := none
  instructions : List Instruction := []
  /-- Absent while the block is open. -/
  terminator : Option Terminator := none
  predecessors : List Nat := []
  successors : List Nat := []

structure FunctionSignature where
  params : List IrType
  ret : IrType
  isVariadic : Bool := false
deriving Inhabited

structure LocalName where
  id : Nat
  type : IrType
  name : Option String

structure IrFunction where
  name : String
  signature : FunctionSignature
  blocks : List Block := []
  locals : List LocalName := []
  convention : CallingConvention := .c
  linkage : Linkage := .external
deriving Inhabited

structure GlobalVariable where
  name : String
  type : IrType
  initializer : Option IrConstant := none
  linkage : Linkage := .external
  isHidden : Bool := false
  isConst : Bool := false
  align : Option Nat := none

structure TypeDefinition where
  name : String
  type : IrType

structure Program where
  functions : List IrFunction := []
  globals : List GlobalVariable := []
  types : List TypeDefinition := []
deriving Inhabited

namespace IrFunction

def isDeclaration (f : IrFunction) : Bool := f.blocks.isEmpty

def block? (f : IrFunction) (id : Nat) : Option Block := f.blocks.find? (·.id == id)

def instructions (f : IrFunction) : List Instruction := f.blocks.flatMap (·.instructions)

end IrFunction

namespace Program

def function? (p : Program) (name : String) : Option IrFunction :=
  p.functions.find? (·.name == name)

def global? (p : Program) (name : String) : Option GlobalVariable :=
  p.globals.find? (·.name == name)

/-- How many functions with a body have the name. -/
def definitionCount (p : Program) (name : String) : Nat :=
  (p.functions.filter fun f => f.name == name && !f.isDeclaration).length

def addFunction (p : Program) (f : IrFunction) : Program :=
  { p with functions := p.functions ++ [f] }

def addGlobal (p : Program) (g : GlobalVariable) : Program := { p with globals := p.globals ++ [g] }

def addType (p : Program) (t : TypeDefinition) : Program := { p with types := p.types ++ [t] }

end Program

/-- Whether an instruction leaves a value in its register. -/
def Instruction.hasResult (i : Instruction) : Bool :=
  match i.type with
  | some type => !type.isVoid
  | none => false

/-- The operands of an operation, from left to right. -/
def Operation.operands : Operation → List Operand
  | .arith _ lhs rhs | .compare _ lhs rhs => [lhs, rhs]
  | .neg value | .not value | .ptrToInt value | .intToPtr value => [value]
  | .convert _ value _ => [value]
  | .load address _ _ => [address]
  | .store value address _ _ => [value, address]
  | .alloca .. => []
  | .elementPtr base indices _ => base :: indices
  | .extract aggregate _ => [aggregate]
  | .insert aggregate element _ => [aggregate, element]
  | .call callee args _ _ => callee :: args

end UnitCompiler
