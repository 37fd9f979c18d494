import Std.Data.HashMap
import UnitCompiler.Machine.Arithmetic
import UnitCompiler.Machine.Memory

/-!
# Running programs

An image is a program with an address for each global.  A call runs the blocks of a function on a
frame of registers and gives its stack back when it ends, whether with a value or a fault.  The depth
of calls is limited, so the recursion of calls is on the depth that is left; the blocks of one
activation run within a budget.
-/

namespace UnitCompiler
namespace Machine

attribute [local instance (high)] instPowNat

/-- Function values are addresses from here on, which memory never reaches. -/
def functionBase : Nat := 2 ^ (40 : Nat)

def maxCallDepth : Nat := 512

def maxSteps : Nat := 50000000

/-- How many blocks one activation of a function may run.  Every instruction counts as a step, so a
run that needs more has entered a block twice without a step in between, and would never end. -/
def blockBudget (f : IrFunction) : Nat := (maxSteps + 2) * (f.blocks.length + 1)

/-- What stays the same while a machine runs. -/
structure Image where
  program : Program
  globals : List (String × Nat)

/-- What a run changes. -/
structure State where
  memory : Memory
  steps : Nat := 0
deriving Inhabited

abbrev RunM := EStateM Fault State

structure Register where
  value : Value
  type : IrType
deriving Inhabited

/-- One activation of a function. -/
structure Frame where
  signature : FunctionSignature
  args : List Value
  registers : Std.HashMap Nat Register := {}

/-- Runs an action on the memory alone. -/
def onMemory {α : Type} (act : EStateM Fault Memory α) : RunM α := fun s =>
  let steps := s.steps
  match act s.memory with
  | .ok a memory => .ok a { memory, steps }
  | .error e memory => .error e { memory, steps }

def liftFault {α : Type} : Except Fault α → RunM α
  | .ok a => pure a
  | .error e => throw e

namespace Image

def globalAddress? (i : Image) (name : String) : Option Nat :=
  (i.globals.find? (·.1 == name)).map (·.2)

def functionAddress? (i : Image) (name : String) : Option Nat :=
  (i.program.functions.findIdx? (·.name == name)).map (functionBase + ·)

/-- The name of the function at an address. -/
def functionAt (i : Image) (address : Nat) : Except Fault String :=
  if address < functionBase then .error (.notFunction address)
  else
    match i.program.functions[address - functionBase]? with
    | some f => .ok f.name
    | none => .error (.notFunction address)

def eval (i : Image) (frame : Frame) : Operand → Except Fault Value
  | .register id =>
    match frame.registers[id]? with
    | some r => .ok r.value
    | none => .error (.registerUnset id)
  | .constant value => constantValue value
  | .global name _ =>
    match i.globalAddress? name with
    | some address => .ok (.ptr address)
    | none => .error (.missingGlobal name)
  | .function name =>
    match i.functionAddress? name with
    | some address => .ok (.ptr address)
    | none => .error (.missingFunction name)
  | .argument index =>
    match frame.args[index]? with
    | some value => .ok value
    | none => .error (.missingArgument index)
  | .undef type => .ok (.zero type)
  | .null _ => .ok (.ptr 0)

def evalPtr (i : Image) (frame : Frame) (operand : Operand) : Except Fault Nat := do
  match ← i.eval frame operand with
  | .ptr address => pure address
  | other => throw (.notPointer other)

end Image

/-- The type of an operand in a frame. -/
def Frame.typeOf (frame : Frame) : Operand → Except Fault IrType
  | .register id =>
    match frame.registers[id]? with
    | some r => .ok r.type
    | none => .error (.registerUntyped id)
  | .constant value => .ok value.type
  | .global _ type => .ok (.ptr type)
  | .function _ => .ok (.ptr .i8)
  | .argument index =>
    match frame.signature.params[index]? with
    | some type => .ok type
    | none => .error (.missingArgument index)
  | .undef type | .null type => .ok type

/-- One step of an index path: the offset it adds and the type it leads to. -/
def indexStep (type : IrType) (index : Int) : Except Fault (Int × IrType) :=
  match type with
  | .struct fields isPacked _ =>
    let place := toU64 index
    match (layout.fieldOffsets fields isPacked)[place]?, fields[place]? with
    | some offset, some field => .ok (offset, field)
    | _, _ => .error (.fieldRange index)
  | .array element _ | .vector element _ => .ok (index * layout.sizeOf element, element)
  | other => .error (.cannotIndex other)

/-- The address at the end of an index path. -/
def followIndices (i : Image) (frame : Frame) :
    IrType → Int → List Operand → Except Fault Int
  | _, address, [] => .ok address
  | type, address, operand :: rest => do
    let index := (← i.eval frame operand).signed?.getD 0
    let (offset, next) ← indexStep type index
    followIndices i frame next (address + offset) rest

/-- The address an `elementPtr` instruction computes. -/
def elementAddress (i : Image) (frame : Frame) (base : Operand) (indices : List Operand) :
    Except Fault Value := do
  let baseType ← frame.typeOf base
  let address ← i.evalPtr frame base
  match baseType.pointee? with
  | none => throw .notPointerType
  | some type =>
    match indices with
    | [] => pure (.ptr (toU64 address))
    | first :: rest =>
      let index := (← i.eval frame first).signed?.getD 0
      let final ← followIndices i frame type (address + index * layout.sizeOf type) rest
      pure (.ptr (toU64 final))

/-- The bytes of a value of one type read as another type of the same size; pointers stay as they are. -/
def bitcast (value : Value) (source target : IrType) : EStateM Fault Memory Value := do
  let throughMemory : EStateM Fault Memory Value := do
    if layout.sizeOf source ≠ layout.sizeOf target then throw (.bitcastSizes source target)
    let mark := (← get).size
    let address ←
      Memory.allocate (layout.sizeOf source) (max (layout.alignOf source) (layout.alignOf target))
    Memory.store address value source
    let result := (← get).load address target
    modify (·.truncate mark)
    match result with
    | .ok v => pure v
    | .error e => throw e
  match value, target with
  | .ptr address, .ptr _ => pure (.ptr address)
  | .ptr address, .function .. => pure (.ptr address)
  | _, _ => throughMemory

/-- A conversion other than a bitcast. -/
def convertValue (op : ConvertOp) (value : Value) (type : IrType) : Except Fault Value :=
  match op with
  | .trunc | .zext =>
    match type.intBits? with
    | some bits => .ok (.int (Word.mask bits (value.unsigned?.getD 0)) bits)
    | none => .error .integerCast
  | .sext =>
    match type.intBits? with
    | some bits => .ok (.ofInt (value.signed?.getD 0) bits)
    | none => .error .integerCast
  | .fptrunc | .fpext => .ok (.float (roundTo (value.double?.getD Double.zero) type))
  | .fptosi =>
    match type.intBits? with
    | some bits => .ok (.ofInt (value.double?.getD Double.zero).toInt bits)
    | none => .error .floatCast
  | .sitofp => .ok (.float (roundTo (Double.ofInt (value.signed?.getD 0)) type))
  | .bitcast => .ok value

/-- How a machine calls a function by name. -/
abbrev Caller := String → List Value → RunM Value

/-- The result of an operation in a frame; `type` is the type of the result. -/
def perform (i : Image) (caller : Caller) (frame : Frame) (type : IrType) : Operation → RunM Value
  | .arith op lhs rhs => do
    let a ← liftFault (i.eval frame lhs)
    let b ← liftFault (i.eval frame rhs)
    liftFault (arith op lhs rhs a b type)
  | .compare op lhs rhs => do
    let a ← liftFault (i.eval frame lhs)
    let b ← liftFault (i.eval frame rhs)
    liftFault (compareValues op a b)
  | .neg value => do
    match ← liftFault (i.eval frame value) with
    | .int word bits => pure (.ofInt (-Word.toInt bits word) bits)
    | .float x => pure (.float x.neg)
    | other => throw (.cannotNegate other)
  | .not value => do
    match ← liftFault (i.eval frame value) with
    | .int word bits => pure (.int (Word.complement bits word) bits)
    | other => throw (.cannotInvert other)
  | .load address _ _ => do
    let at_ ← liftFault (i.evalPtr frame address)
    liftFault ((← get).memory.load at_ type)
  | .store value address _ _ => do
    let valueType ← liftFault (frame.typeOf value)
    let v ← liftFault (i.eval frame value)
    let at_ ← liftFault (i.evalPtr frame address)
    onMemory (Memory.store at_ v valueType)
    pure .void
  | .alloca slot align => do
    let at_ ← onMemory (Memory.allocate (layout.sizeOf slot) align)
    onMemory (Memory.store at_ (.zero slot) slot)
    pure (.ptr at_)
  | .elementPtr base indices _ => liftFault (elementAddress i frame base indices)
  | .ptrToInt value => do
    let at_ ← liftFault (i.evalPtr frame value)
    pure (.ofInt at_ (type.intBits?.getD 64))
  | .intToPtr value => do
    let v ← liftFault (i.eval frame value)
    pure (.ptr (toU64 (v.unsigned?.getD 0)))
  | .convert .bitcast value target => do
    let source ← liftFault (frame.typeOf value)
    let v ← liftFault (i.eval frame value)
    onMemory (bitcast v source target)
  | .convert op value target => do
    let v ← liftFault (i.eval frame value)
    liftFault (convertValue op v target)
  | .extract aggregate indices => do
    let v ← liftFault (i.eval frame aggregate)
    liftFault (extractAt v indices)
  | .insert aggregate element indices => do
    let v ← liftFault (i.eval frame aggregate)
    let e ← liftFault (i.eval frame element)
    liftFault (insertAt v e indices)
  | .call callee args _ _ => do
    let name ←
      match callee with
      | .function name => pure name
      | other => do
        let at_ ← liftFault (i.evalPtr frame other)
        liftFault (i.functionAt at_)
    let values ← args.mapM fun arg => liftFault (i.eval frame arg)
    caller name values

/-- Counts a step. -/
def tick : RunM Unit := do
  modify fun s => { s with steps := s.steps + 1 }
  if maxSteps < (← get).steps then throw .stepLimit

/-- Runs one instruction and keeps its result in the frame. -/
def stepInstruction (i : Image) (caller : Caller) (frame : Frame) (instruction : Instruction) :
    RunM Frame := do
  tick
  let type := instruction.type.getD .void
  let value ← perform i caller frame type instruction.operation
  if type.isVoid then pure frame
  else pure { frame with registers := frame.registers.insert instruction.id ⟨value, type⟩ }

/-- Where control goes after a block. -/
inductive Exit where
  | leave (value : Value)
  | goto (block : Nat)

def leaveBlock (i : Image) (frame : Frame) (b : Block) : Except Fault Exit :=
  match b.terminator with
  | some (.ret (some value)) => (i.eval frame value).map .leave
  | some (.ret none) => .ok (.leave .void)
  | some (.br target) => .ok (.goto target)
  | some (.condBr condition ifTrue ifFalse) => do
    let value ← i.eval frame condition
    return .goto (if value.unsigned?.getD 0 ≠ 0 then ifTrue else ifFalse)
  | some .unreachable => .error .unreachable
  | none => .error (.notTerminated b.id)

/-- Runs blocks from `current` on until the function returns. -/
def runBlocks (i : Image) (caller : Caller) (f : IrFunction) : Nat → Nat → Frame → RunM Value
  | 0, _, _ => throw .stalled
  | budget + 1, current, frame =>
    match f.block? current with
    | none => throw (.missingBlock current)
    | some b => do
      let frame ← b.instructions.foldlM (stepInstruction i caller) frame
      match ← liftFault (leaveBlock i frame b) with
      | .leave value => pure value
      | .goto target => runBlocks i caller f budget target frame

/-- Gives back what an action left on the stack. -/
def restoringStack {α : Type} (act : RunM α) : RunM α := fun s =>
  let mark := s.memory.size
  match act s with
  | .ok a s => .ok a { s with memory := s.memory.truncate mark }
  | .error e s => .error e { s with memory := s.memory.truncate mark }

/-- Calls a function when `depth` more calls may be entered. -/
def callFunction (i : Image) : Nat → Caller
  | depth, name, args =>
    match i.program.function? name with
    | none => throw (.missingFunction name)
    | some f =>
      let expected := f.signature.params.length
      if f.isDeclaration then throw (.externalFunction name)
      else if args.length < expected || (expected < args.length && !f.signature.isVariadic) then
        throw (.argumentCount name expected args.length)
      else
        match depth with
        | 0 => throw (.callDepth name)
        | depth + 1 =>
          match f.blocks.head? with
          | none => throw (.noBlocks name)
          | some entry =>
            restoringStack
              (runBlocks i (callFunction i depth) f (blockBudget f) entry.id
                { signature := f.signature, args })

/-- A program in memory. -/
structure Session where
  image : Image
  state : State

def allocateGlobals : List GlobalVariable → EStateM Fault Memory (List (String × Nat))
  | [] => pure []
  | g :: rest => do
    let address ← Memory.allocate (layout.sizeOf g.type) (layout.alignOf g.type)
    return (g.name, address) :: (← allocateGlobals rest)

/-- The value a global starts with. -/
def initialValue (g : GlobalVariable) : Except Fault Value :=
  match g.initializer with
  | some init => constantValue init
  | none => .ok (.zero g.type)

/-- Writes the initial values of globals.  Of several globals with one name the last one's address
stands for all. -/
def initGlobals (addresses : List (String × Nat)) : List GlobalVariable → EStateM Fault Memory Unit
  | [] => pure ()
  | g :: rest => do
    match initialValue g with
    | .error e => throw e
    | .ok value =>
      let address := ((addresses.reverse.find? (·.1 == g.name)).map (·.2)).getD 0
      Memory.store address value g.type
      initGlobals addresses rest

/-- Puts the globals of a program into memory. -/
def boot (program : Program) : Except Fault Session :=
  let start : EStateM Fault Memory (List (String × Nat)) := do
    let addresses ← allocateGlobals program.globals
    initGlobals addresses program.globals
    pure addresses
  match start Memory.initial with
  | .ok addresses memory => .ok ⟨⟨program, addresses.reverse⟩, { memory }⟩
  | .error e _ => .error e

namespace Session

/-- Calls a function from outside. -/
def run (s : Session) (name : String) (args : List Value) : Except Fault Value × Session :=
  match callFunction s.image maxCallDepth name args s.state with
  | .ok value state => (.ok value, { s with state })
  | .error e state => (.error e, { s with state })

def readGlobal (s : Session) (name : String) : Except Fault Value :=
  match s.image.program.global? name, s.image.globalAddress? name with
  | some g, some address => s.state.memory.load address g.type
  | _, _ => .error (.missingGlobal name)

def load (s : Session) (address : Nat) (type : IrType) : Except Fault Value :=
  s.state.memory.load address type

def store (s : Session) (address : Nat) (value : Value) (type : IrType) :
    Except Fault Unit × Session :=
  match onMemory (Memory.store address value type) s.state with
  | .ok () state => (.ok (), { s with state })
  | .error e state => (.error e, { s with state })

end Session
end Machine
end UnitCompiler
