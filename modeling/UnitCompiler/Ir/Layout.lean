import UnitCompiler.Ir.Type
import UnitCompiler.Types.Layout

/-!
# Layout of machine types

Sizes, alignments and field offsets in bytes.  Sizes that would leave 64 bits stay at the largest
64-bit integer; alignments are words of 32 bits, and their products wrap.
-/

namespace UnitCompiler

attribute [local instance (high)] instPowNat

/-- What the layout depends on: the size of a pointer. -/
structure DataLayout where
  pointerBytes : Nat := 8
deriving DecidableEq, Repr, Inhabited

structure StructLayout where
  size : Nat
  align : Nat
  offsets : List Nat
deriving DecidableEq, Repr

namespace DataLayout

def ofPointerBits (bits : Nat) : DataLayout := ⟨bits / 8⟩

/-- The largest alignment of a vector. -/
def maxVectorAlign : Nat := 16

mutual

def sizeOf (d : DataLayout) : IrType → Nat
  | .i1 | .i8 => 1
  | .i16 | .f16 | .bf16 => 2
  | .i32 | .f32 => 4
  | .i64 | .f64 => 8
  | .i128 | .f128 => 16
  | .ptr _ | .function .. => d.pointerBytes
  | .array element length => saturatingMul (sizeOf d element) length
  | .struct fields isPacked _ =>
    let (_, stop, align) := placeFields d isPacked fields 0 1
    if isPacked then stop else alignUp stop align
  | .vector element lanes => saturatingMul (sizeOf d element) lanes
  | .void => 0

def alignOf (d : DataLayout) : IrType → Nat
  | .i1 | .i8 => 1
  | .i16 | .f16 | .bf16 => 2
  | .i32 | .f32 => 4
  | .i64 | .f64 => 8
  | .i128 | .f128 => 16
  | .ptr _ | .function .. => d.pointerBytes % 2 ^ (32 : Nat)
  | .array element _ => alignOf d element
  | .struct fields isPacked _ =>
    let (_, _, align) := placeFields d isPacked fields 0 1
    align
  | .vector element lanes => min (alignOf d element * lanes % 2 ^ (32 : Nat)) maxVectorAlign
  | .void => 1

/-- Places fields from `offset` on: their offsets, the end of the last one, and the largest
alignment met, starting from `align`. -/
def placeFields (d : DataLayout) (isPacked : Bool) : List IrType → Nat → Nat → List Nat × Nat × Nat
  | [], offset, align => ([], offset, align)
  | field :: rest, offset, align =>
    let fieldAlign := if isPacked then 1 else alignOf d field
    let start := if isPacked then offset else alignUp offset fieldAlign
    let (offsets, final) :=
      placeFields d isPacked rest (saturatingAdd start (sizeOf d field)) (max align fieldAlign)
    (start :: offsets, final)

end

/-- The layout of a struct type. -/
def structLayout? (d : DataLayout) (type : IrType) : Option StructLayout :=
  match type with
  | .struct fields isPacked _ =>
    let (offsets, _, _) := d.placeFields isPacked fields 0 1
    some ⟨d.sizeOf type, d.alignOf type, offsets⟩
  | _ => none

def fieldOffsets (d : DataLayout) (fields : List IrType) (isPacked : Bool) : List Nat :=
  (d.placeFields isPacked fields 0 1).1

/-- The offset of an element of an array, vector or struct. -/
def elementOffset? (d : DataLayout) (type : IrType) (index : Nat) : Option Nat :=
  match type with
  | .array element _ | .vector element _ => checkU64 (d.sizeOf element * index)
  | .struct fields isPacked _ => (d.fieldOffsets fields isPacked)[index]?
  | _ => none

end DataLayout
end UnitCompiler
