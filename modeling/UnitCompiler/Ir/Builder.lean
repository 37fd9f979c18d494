import UnitCompiler.Ir.Layout
import UnitCompiler.Ir.Program

/-!
# Building a function

A builder appends instructions to the current block.  A block gets one terminator; what is pushed
after it goes to a new block that nothing reaches.
-/

namespace UnitCompiler

structure FunctionBuilder where
  function : IrFunction
  current : Nat := 0
  nextValue : Nat := 0
  nextBlock : Nat := 0
  layout : DataLayout := {}
  /-- How many instructions at the head of the entry block were put there by `entrySlot`. -/
  entryCount : Nat := 0
deriving Inhabited

/-- Actions on a builder. -/
abbrev BuildM := StateM FunctionBuilder

def constI32 (value : Int) : Operand := .constant (.int value .i32)

def constInt (value : Int) (type : IrType) : Operand := .constant (.int value type)

def IrFunction.modifyBlock (f : IrFunction) (id : Nat) (g : Block → Block) : IrFunction :=
  { f with blocks := f.blocks.map fun b => if b.id == id then g b else b }

namespace FunctionBuilder

def modifyBlock (id : Nat) (g : Block → Block) : BuildM Unit :=
  modify fun b => { b with function := b.function.modifyBlock id g }

/-- Adds an open block and returns its number. -/
def createBlock (label : String) : BuildM Nat := do
  let b ← get
  let id := b.nextBlock
  let function := { b.function with blocks := b.function.blocks ++ [{ id, label := some label }] }
  set { b with function, nextBlock := id + 1 }
  return id

def switchTo (id : Nat) : BuildM Unit := modify fun b => { b with current := id }

/-- A builder for a function without blocks, in its new entry block. -/
def new (function : IrFunction) (layout : DataLayout) : FunctionBuilder :=
  let start := do
    let entry ← createBlock "entry"
    switchTo entry
  (start.run { function, layout }).2

def isTerminated (b : FunctionBuilder) : Bool :=
  match b.function.block? b.current with
  | some block => block.terminator.isSome
  | none => false

def addLocal (name : LocalName) : BuildM Unit :=
  modify fun b => { b with function := { b.function with locals := b.function.locals ++ [name] } }

def append (b : Block) (i : Instruction) : Block := { b with instructions := b.instructions ++ [i] }

/-- Appends an instruction and returns its register, if its type makes it have one. -/
def push (operation : Operation) (type : Option IrType) : BuildM Operand := do
  if (← get).isTerminated then
    switchTo (← createBlock "dead")
  let b ← get
  let instruction : Instruction := { id := b.nextValue, operation, type }
  set { b with nextValue := b.nextValue + 1 }
  modifyBlock b.current (append · instruction)
  return if instruction.hasResult then .register instruction.id else .undef .void

def addPredecessor (id : Nat) (b : Block) : Block :=
  if b.predecessors.contains id then b else { b with predecessors := b.predecessors ++ [id] }

/-- Ends the current block unless it has ended. -/
def terminate (terminator : Terminator) : BuildM Unit := do
  let b ← get
  if b.isTerminated then return
  let successors := terminator.successors
  modifyBlock b.current fun block => { block with successors, terminator := some terminator }
  successors.forM fun target => modifyBlock target (addPredecessor b.current)

def br (target : Nat) : BuildM Unit := terminate (.br target)

def condBr (condition : Operand) (ifTrue ifFalse : Nat) : BuildM Unit :=
  terminate (.condBr condition ifTrue ifFalse)

def ret (value : Option Operand) : BuildM Unit := terminate (.ret value)

def alloca (type : IrType) : BuildM Operand := do
  let align := (← get).layout.alignOf type
  push (.alloca type align) (some (.ptr type))

/-- Puts a slot holding `init` at the head of the entry block, behind the slots put there before. -/
def entrySlot (type : IrType) (init : Operand) : BuildM Operand := do
  let b ← get
  let slot : Instruction :=
    { id := b.nextValue
      operation := .alloca type (b.layout.alignOf type)
      type := some (.ptr type) }
  let store : Instruction :=
    { id := b.nextValue + 1, operation := .store init (.register slot.id) none false }
  modify fun b => { b with nextValue := b.nextValue + 2, entryCount := b.entryCount + 2 }
  modifyBlock 0 fun block =>
    let head := block.instructions.take b.entryCount
    let rest := block.instructions.drop b.entryCount
    { block with instructions := head ++ slot :: store :: rest }
  return .register slot.id

def load (address : Operand) (type : IrType) : BuildM Operand :=
  push (.load address none false) (some type)

def store (value address : Operand) : BuildM Unit :=
  discard (push (.store value address none false) none)

/-- The address of an element below `base`; the result points to `element`. -/
def elementPtr (base : Operand) (indices : List Operand) (element : IrType) : BuildM Operand :=
  push (.elementPtr base indices true) (some (.ptr element))

/-- The address of a field of the struct that `base` points to. -/
def fieldPtr (base : Operand) (index : Nat) (field : IrType) : BuildM Operand :=
  elementPtr base [constI32 0, constI32 index] field

def convert (op : ConvertOp) (value : Operand) (type : IrType) : BuildM Operand :=
  push (.convert op value type) (some type)

def bitcast (value : Operand) (type : IrType) : BuildM Operand := convert .bitcast value type

def call (callee : Operand) (args : List Operand) (convention : CallingConvention) (ret : IrType) :
    BuildM Operand :=
  push (.call callee args convention false) (some ret)

/-- A block that is kept when the function is closed. -/
def isKept (b : Block) : Bool :=
  b.id == 0 || b.terminator.isSome || !b.instructions.isEmpty || !b.predecessors.isEmpty

/-- Ends an open block that nothing reaches. -/
def close (b : Block) : Block :=
  if b.id != 0 && b.terminator.isNone && b.predecessors.isEmpty then
    { b with terminator := some .unreachable }
  else b

/-- The finished function: empty blocks that nothing reaches are dropped, others are closed. -/
def finish (b : FunctionBuilder) : IrFunction :=
  { b.function with blocks := (b.function.blocks.filter isKept).map close }

end FunctionBuilder
end UnitCompiler
