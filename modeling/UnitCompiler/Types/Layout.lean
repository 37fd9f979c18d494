import UnitCompiler.Number.Word
import UnitCompiler.Types.Basic

/-!
# Layout of source types

Sizes and alignments in bytes.  Aggregates are laid out field after field, each at the next multiple
of its alignment.  A size that leaves 64 bits, a type without a size, and nesting beyond the limit
have no layout.
-/

namespace UnitCompiler

/-- The least multiple of the alignment that is not below the value, within 64 bits. -/
def alignUp? (value alignment : Nat) : Option Nat :=
  if alignment ≤ 1 then some value
  else if value % alignment = 0 then some value
  else checkU64 (value + (alignment - value % alignment))

/-- `alignUp?`, at the largest 64-bit integer when there is no such multiple. -/
def alignUp (value alignment : Nat) : Nat := (alignUp? value alignment).getD maxU64

/-- What the layout of a type depends on: the width of a pointer and the fields of each aggregate. -/
structure LayoutSource where
  pointerBits : Nat
  fields : String → Option (List SourceType)

structure AggregateLayout where
  size : Nat
  align : Nat
  offsets : List Nat
deriving DecidableEq, Repr

namespace AggregateLayout

/-- Places the fields from `offset` on, given the sizes and alignments of their types. -/
def place (alignOf sizeOf : SourceType → Option Nat) :
    List SourceType → Nat → Nat → Option (List Nat × Nat × Nat)
  | [], offset, align => some ([], offset, align)
  | field :: rest, offset, align => do
    let fieldAlign := max (← alignOf field) 1
    let start ← alignUp? offset fieldAlign
    let stop ← checkU64 (start + (← sizeOf field))
    let (offsets, final) ← place alignOf sizeOf rest stop (max align fieldAlign)
    some (start :: offsets, final)

def ofFields (alignOf sizeOf : SourceType → Option Nat) (fields : List SourceType) :
    Option AggregateLayout := do
  let (offsets, stop, align) ← place alignOf sizeOf fields 0 1
  some ⟨← alignUp? stop align, align, offsets⟩

end AggregateLayout

namespace SourceType

/-- How deep arrays and aggregates may nest before a type has no layout. -/
def maxLayoutDepth : Nat := 64

mutual

/-- The size of a type when `budget` more levels of nesting may be entered. -/
def sizeWithin (src : LayoutSource) : Nat → SourceType → Option Nat
  | 0, _ => none
  | budget + 1, type =>
    match type.strip with
    | .void => some 0
    | .scalar kind => some kind.bytes
    | .pointer _ | .function .. => some (src.pointerBits / 8)
    | .array inner (.fixed length) => do checkU64 ((← sizeWithin src budget inner) * length)
    | .aggregate name args => do
      let fields ← src.fields (canonical (.aggregate name args))
      let layout ← AggregateLayout.ofFields (alignWithin src budget) (sizeWithin src budget) fields
      some layout.size
    | _ => none

/-- The alignment of a type when `budget` more levels of nesting may be entered. -/
def alignWithin (src : LayoutSource) : Nat → SourceType → Option Nat
  | 0, _ => none
  | budget + 1, type =>
    match type.strip with
    | .void => some 1
    | .scalar kind => some kind.align
    | .pointer _ | .function .. => some (src.pointerBits / 8)
    | .array inner _ => alignWithin src budget inner
    | .aggregate name args => do
      let fields ← src.fields (canonical (.aggregate name args))
      let layout ← AggregateLayout.ofFields (alignWithin src budget) (sizeWithin src budget) fields
      some layout.align
    | _ => none

end

def sizeBytes? (src : LayoutSource) (type : SourceType) : Option Nat :=
  sizeWithin src (maxLayoutDepth + 1) type

def alignment? (src : LayoutSource) (type : SourceType) : Option Nat :=
  alignWithin src (maxLayoutDepth + 1) type

/-- The size in bits: the declared width of a scalar, the storage of anything else. -/
def sizeBits? (src : LayoutSource) (type : SourceType) : Option Nat :=
  match type.strip with
  | .scalar kind => some kind.bits
  | _ => do checkU64 ((← type.sizeBytes? src) * 8)

end SourceType

/-- The layout of a list of fields. -/
def aggregateLayout? (src : LayoutSource) (fields : List SourceType) : Option AggregateLayout :=
  AggregateLayout.ofFields (SourceType.alignment? src) (SourceType.sizeBytes? src) fields

end UnitCompiler
