import UnitCompiler.Compile.Context

/-!
# Machine types of source types

Aggregates become named structs with their fields lowered in turn.  A pointer back into an aggregate
that is still being lowered becomes a pointer to bytes; an aggregate that contains itself by value has
no machine type.
-/

namespace UnitCompiler

def Scalar.machineType : Scalar → IrType
  | .bool => .i1
  | .char | .uchar => .i8
  | .short | .ushort => .i16
  | .int | .uint => .i32
  | .long | .ulong => .i64
  | .cent | .ucent => .i128
  | .half => .f16
  | .bhalf => .bf16
  | .float => .f32
  | .double => .f64
  | .real => .f128

namespace SourceType

/-- The pointer type to `inner`, given what `inner` lowers to.  A function is already a pointer. -/
def pointerTo (visiting : List String) (inner : SourceType)
    (lowered : Except Problem IrType) : Except Problem IrType :=
  if inner.isFunction then lowered
  else if inner.aggregateName?.any visiting.contains || inner.isVoid then .ok (.ptr .i8)
  else lowered.map .ptr

mutual

/-- The machine type of a type inside the aggregates `visiting`; `expand` gives those of aggregates. -/
def lowerWith (expand : String → Except Problem IrType) (visiting : List String) :
    SourceType → Except Problem IrType
  | .void => .ok .void
  | .scalar kind => .ok kind.machineType
  | .pointer inner => pointerTo visiting inner (lowerWith expand visiting inner)
  | .array inner (.fixed length) => return .array (← lowerWith expand visiting inner) length
  | .array inner length => .error (.arrayLengthUnknown (canonical (.array inner length)))
  | .aggregate name args =>
    let name := canonical (.aggregate name args)
    if visiting.contains name then .error (.containsItself name) else expand name
  | .function ret params isVariadic => do
    let params ← lowerAll expand visiting params
    return .ptr (.function (← lowerWith expand visiting ret) params isVariadic)
  | .templateParam name => .error (.unboundParameter name)
  | .const inner | .alias _ inner => lowerWith expand visiting inner

def lowerAll (expand : String → Except Problem IrType) (visiting : List String) :
    List SourceType → Except Problem (List IrType)
  | [] => .ok []
  | type :: rest => return (← lowerWith expand visiting type) :: (← lowerAll expand visiting rest)

end

end SourceType

namespace SymbolTables

/-- The struct of an aggregate when at most `budget` aggregates are entered. -/
def expand (s : SymbolTables) : Nat → List String → String → Except Problem IrType
  | 0, _, name => .error (.containsItself name)
  | budget + 1, visiting, name =>
    match s.fieldTypes? name with
    | none => .error (.unknownAggregate name)
    | some fields => do
      let visiting := name :: visiting
      let fields ← SourceType.lowerAll (s.expand budget visiting) visiting fields
      return .struct fields false (some name)

/-- The machine type of a resolved type.  Each aggregate is entered at most once on a path, so as many
entries as there are aggregates, and one for an unknown one, are enough. -/
def lower (s : SymbolTables) (type : SourceType) : Except Problem IrType :=
  type.lowerWith (s.expand (s.aggregates.size + 1) []) []

end SymbolTables

/-- The machine type of a resolved type. -/
def CompileM.lower (type : SourceType) (location : Location) : CompileM IrType := do
  orBail location ((← get).symbols.lower type)

end UnitCompiler
