import UnitCompiler.Ir.Printer

/-!
# Verification of functions

The structural rules a function has to meet, and what breaks them.
-/

namespace UnitCompiler

/-- A broken rule. -/
inductive Defect where
  | undefinedRegister (id : Nat)
  | usedBeforeDefinition (id block : Nat)
  | argumentOutOfRange (index : Nat)
  | argumentCount (callee : String) (passed expected : Nat)
  | noTerminator (block : Nat)
  | voidReturnsValue
  | missingReturnValue
  | missingBlock (block target : Nat)
deriving DecidableEq, Repr

def Defect.message : Defect → String
  | .undefinedRegister id => s!"use of undefined register %r{id}"
  | .usedBeforeDefinition id block => s!"register %r{id} used before its definition in bb{block}"
  | .argumentOutOfRange index => s!"parameter %arg{index} out of range"
  | .argumentCount callee passed expected =>
    s!"call to @{callee} passes {passed} arguments, expected {expected}"
  | .noTerminator block => s!"block bb{block} has no terminator"
  | .voidReturnsValue => "void function returns a value"
  | .missingReturnValue => "non-void function returns without a value"
  | .missingBlock block target => s!"bb{block} branches to missing block bb{target}"

/-- Where a register gets its value. -/
structure Definition where
  register : Nat
  block : Nat
  position : Nat

namespace IrFunction

/-- The definitions of a function, in the order of its text. -/
def definitions (f : IrFunction) : List Definition :=
  f.blocks.flatMap fun b =>
    b.instructions.zipIdx.filterMap fun (i, position) =>
      if i.hasResult then some ⟨i.id, b.id, position⟩ else none

/-- The definition of a register; of several the last. -/
def definition? (defs : List Definition) (register : Nat) : Option Definition :=
  defs.reverse.find? (·.register == register)

/-- An operand at a position of a block refers to something that is there. -/
def checkOperand (f : IrFunction) (defs : List Definition) (block position : Nat) :
    Operand → Except Defect Unit
  | .register id =>
    match definition? defs id with
    | none => throw (.undefinedRegister id)
    | some d =>
      if d.block == block && decide (position ≤ d.position) then
        throw (.usedBeforeDefinition id block)
      else pure ()
  | .argument index =>
    if f.signature.params.length ≤ index then throw (.argumentOutOfRange index) else pure ()
  | _ => pure ()

/-- A direct call passes as many arguments as the callee takes, or more to a variadic one. -/
def checkCall (f : IrFunction) (p : Program) : Operation → Except Defect Unit
  | .call (.function callee) args _ _ =>
    let signature :=
      if callee == f.name then some f.signature else (p.function? callee).map (·.signature)
    match signature with
    | none => pure ()
    | some s =>
      let expected := s.params.length
      let fits :=
        if s.isVariadic then decide (expected ≤ args.length) else args.length == expected
      if fits then pure () else throw (.argumentCount callee args.length expected)
  | _ => pure ()

def checkInstruction (f : IrFunction) (p : Program) (defs : List Definition) (block : Nat)
    (i : Instruction) (position : Nat) : Except Defect Unit := do
  i.operation.operands.forM (f.checkOperand defs block position)
  f.checkCall p i.operation

/-- A return carries a value exactly when the function has a result. -/
def checkTerminator (f : IrFunction) (defs : List Definition) (b : Block) :
    Terminator → Except Defect Unit
  | .ret (some value) =>
    if f.signature.ret.isVoid then throw .voidReturnsValue
    else f.checkOperand defs b.id b.instructions.length value
  | .ret none => if f.signature.ret.isVoid then pure () else throw .missingReturnValue
  | .condBr condition _ _ => f.checkOperand defs b.id b.instructions.length condition
  | .br _ | .unreachable => pure ()

def checkTarget (f : IrFunction) (b : Block) (target : Nat) : Except Defect Unit :=
  if (f.block? target).isSome then pure () else throw (.missingBlock b.id target)

def checkBlock (f : IrFunction) (p : Program) (defs : List Definition) (b : Block) :
    Except Defect Unit := do
  b.instructions.zipIdx.forM fun (i, position) => f.checkInstruction p defs b.id i position
  match b.terminator with
  | none => throw (.noTerminator b.id)
  | some terminator =>
    f.checkTerminator defs b terminator
    terminator.successors.forM (f.checkTarget b)

/-- Checks a function against the functions of a program; declarations always pass. -/
def verify (f : IrFunction) (p : Program) : Except Defect Unit :=
  f.blocks.forM (f.checkBlock p f.definitions)

end IrFunction
end UnitCompiler
