import UnitCompiler.Machine.Value

/-!
# Faults of the machine

Why a run ends without a value.
-/

namespace UnitCompiler
namespace Machine

inductive Fault where
  | missingFunction (name : String)
  | externalFunction (name : String)
  | argumentCount (name : String) (expected passed : Nat)
  | callDepth (name : String)
  | noBlocks (name : String)
  | missingBlock (id : Nat)
  | notTerminated (id : Nat)
  | stepLimit
  | unreachable
  | cannotNegate (value : Value)
  | cannotInvert (value : Value)
  | integerCast
  | floatCast
  | cannotExtract (index : Nat) (value : Value)
  | insertRange (index : Nat)
  | cannotInsert (value : Value)
  | registerUnset (id : Nat)
  | registerUntyped (id : Nat)
  | missingGlobal (name : String)
  | missingArgument (index : Nat)
  | notPointer (value : Value)
  | notFunction (address : Nat)
  | notPointerType
  | fieldRange (index : Int)
  | cannotIndex (type : IrType)
  | bitcastSizes (source target : IrType)
  | outOfMemory
  | nullPointer
  | outOfBounds (address : Nat)
  | unsupportedValue (type : IrType)
  | unsupportedConstant (type : IrType)
  | cannotStore (value : Value) (type : IrType)
  | cannotLoad (type : IrType)
  | floatOperation (op : ArithOp) (lhs rhs : Operand)
  | mixedOperands (op : ArithOp) (lhs rhs : Operand) (left right : Value)
  | cannotCompare (left right : Value)
  | divisionByZero
  /-- The divisor is not zero, but its low bits in the width of the dividend are. -/
  | divisorVanishes
  /-- The sum of an address and a size or an offset leaves 64 bits. -/
  | addressOverflow
  /-- The run goes around blocks without instructions and never ends. -/
  | stalled

namespace Fault

/-- Whether the fault is a feature the machine does not have. -/
def isUnsupported : Fault → Bool
  | .externalFunction _ | .unsupportedValue _ | .unsupportedConstant _ => true
  | _ => false

/-- Whether the fault ends the machine itself rather than the run. -/
def isFatal : Fault → Bool
  | .divisorVanishes | .addressOverflow | .stalled => true
  | _ => false

def detail : Fault → String
  | .missingFunction name => s!"missing function {name}"
  | .externalFunction name => s!"external function {name}"
  | .argumentCount name expected passed => s!"function {name} expects {expected} args but got {passed}"
  | .callDepth name => s!"call depth exceeded in {name}"
  | .noBlocks name => s!"function {name} has no blocks"
  | .missingBlock id => s!"missing block {id}"
  | .notTerminated id => s!"block {id} is not terminated"
  | .stepLimit => "step limit exceeded"
  | .unreachable => "unreachable"
  | .cannotNegate value => "cannot negate " ++ value.outline
  | .cannotInvert value => "cannot invert " ++ value.outline
  | .integerCast => "integer cast to a non-integer"
  | .floatCast => "float cast to a non-integer"
  | .cannotExtract index value => s!"cannot extract {index} from " ++ value.outline
  | .insertRange index => s!"insert index {index} out of range"
  | .cannotInsert value => "cannot insert into " ++ value.outline
  | .registerUnset id => s!"register %{id} read before write"
  | .registerUntyped id => s!"register %{id} has no type"
  | .missingGlobal name => s!"missing global {name}"
  | .missingArgument index => s!"missing argument {index}"
  | .notPointer value => "expected a pointer, got " ++ value.outline
  | .notFunction address => "call through a non-function address " ++ Text.markedHex address
  | .notPointerType => "getelementptr on a non-pointer"
  | .fieldRange index => s!"field {index} out of range"
  | .cannotIndex type => "cannot index into " ++ type.outline
  | .bitcastSizes source target =>
    "bitcast between sizes of " ++ source.outline ++ " and " ++ target.outline
  | .outOfMemory => "out of memory"
  | .nullPointer => "null pointer dereference"
  | .outOfBounds address => "access out of bounds at " ++ Text.markedHex address
  | .unsupportedValue type => type.outline ++ " values"
  | .unsupportedConstant type => type.outline ++ " constants"
  | .cannotStore value type => "cannot store " ++ value.outline ++ " as " ++ type.outline
  | .cannotLoad type => "cannot load " ++ type.outline
  | .floatOperation op lhs rhs => op.outline lhs rhs ++ " on floats"
  | .mixedOperands op lhs rhs left right =>
    op.outline lhs rhs ++ " on " ++ left.outline ++ " and " ++ right.outline
  | .cannotCompare left right => "cannot compare " ++ left.outline ++ " and " ++ right.outline
  | .divisionByZero => "division by zero"
  | .divisorVanishes => "attempt to divide by zero"
  | .addressOverflow => "attempt to add with overflow"
  | .stalled => "block budget exhausted"

def message (f : Fault) : String :=
  (if f.isUnsupported then "unsupported lir: " else "vm error: ") ++ f.detail

end Fault
end Machine
end UnitCompiler
