import UnitCompiler.Ir.Layout
import UnitCompiler.Machine.Fault

/-!
# Memory of the machine

One array of bytes that grows upward, up to a limit.  The lowest addresses are never handed out, so that
zero can be the null pointer.  Values are stored with the layout of their type, low byte first.

Addresses are words of 64 bits.  A sum that leaves them, the end of a new range or the address of an item,
would come around to the lowest addresses: the machine ends there with a fault of its own.
-/

namespace UnitCompiler
namespace Machine

attribute [local instance (high)] instPowNat

/-- The first address that is handed out. -/
def memoryBase : Nat := 16

/-- The largest size of the memory. -/
def memoryLimit : Nat := 64 * 2 ^ (20 : Nat)

/-- The layout of values in memory. -/
def layout : DataLayout := ⟨8⟩

structure Memory where
  bytes : Array UInt8
  size_le : bytes.size ≤ memoryLimit

namespace Memory

def initial : Memory := ⟨Array.replicate memoryBase 0, by decide⟩

instance : Inhabited Memory := ⟨initial⟩

def size (m : Memory) : Nat := m.bytes.size

/-- Gives up everything from an address on. -/
def truncate (m : Memory) (size : Nat) : Memory where
  bytes := m.bytes.shrink size
  size_le := by
    rw [Array.size_shrink]
    exact Nat.le_trans (Nat.min_le_right _ _) m.size_le

/-- The `count` low bytes of a number, the lowest first. -/
def lowBytes : Nat → Nat → List UInt8
  | 0, _ => []
  | count + 1, n => n.toUInt8 :: lowBytes count (n / 256)

/-- The number with the given bytes, the lowest first. -/
def ofLowBytes : List UInt8 → Nat
  | [] => 0
  | b :: rest => b.toNat + 256 * ofLowBytes rest

/-- Whether `count` bytes may be accessed at an address. -/
def checkAccess (m : Memory) (address count : Nat) : Except Fault Unit :=
  if maxU64 < address then throw .addressOverflow
  else if address < memoryBase then throw .nullPointer
  else if m.size < address + count then throw (.outOfBounds address)
  else pure ()

def readBytes (m : Memory) (address count : Nat) : Except Fault (List UInt8) := do
  m.checkAccess address count
  pure ((m.bytes.extract address (address + count)).toList)

/-- The number in `count` bytes at an address. -/
def readWord (m : Memory) (address count : Nat) : Except Fault Nat := do
  return ofLowBytes (← m.readBytes address count)

def writeFrom (bytes : Array UInt8) (address : Nat) : List UInt8 → Array UInt8
  | [] => bytes
  | b :: rest => writeFrom (bytes.setIfInBounds address b) (address + 1) rest

@[simp] theorem size_writeFrom (bytes : Array UInt8) (a : Nat) (l : List UInt8) :
    (writeFrom bytes a l).size = bytes.size := by
  induction l generalizing bytes a with
  | nil => rfl
  | cons b l ih => simp [writeFrom, ih]

/-- The memory with other bytes from an address on. -/
def write (m : Memory) (address : Nat) (bytes : List UInt8) : Memory :=
  ⟨writeFrom m.bytes address bytes, Nat.le_trans (Nat.le_of_eq (size_writeFrom _ _ _)) m.size_le⟩

/-- Writes the low bytes of a number at an address. -/
def writeWord (address count n : Nat) : EStateM Fault Memory Unit := fun m =>
  match m.checkAccess address count with
  | .error e => .error e m
  | .ok () => .ok () (m.write address (lowBytes count n))

/-- The memory with zeros behind it, up to an address. -/
def extend (m : Memory) (stop : Nat) (h : stop ≤ memoryLimit) : Memory where
  bytes := m.bytes ++ Array.replicate (stop - m.size) 0
  size_le := by
    have hsize : m.bytes.size = m.size := rfl
    have hle := m.size_le
    rw [Array.size_append, Array.size_replicate]
    omega

/-- Adds at least one byte of storage at the next aligned address. -/
def allocate (size align : Nat) : EStateM Fault Memory Nat := fun m =>
  let address := alignUp m.size (max align 1)
  let stop := address + max size 1
  if maxU64 < stop then .error .addressOverflow m
  else if h : stop ≤ memoryLimit then .ok address (m.extend stop h)
  else .error .outOfMemory m

mutual

/-- Writes a value with the layout of a type.  What was written before a fault stays. -/
def store (address : Nat) (value : Value) : IrType → EStateM Fault Memory Unit
  | .void => pure ()
  | .i1 => storeInt address value .i1
  | .i8 => storeInt address value .i8
  | .i16 => storeInt address value .i16
  | .i32 => storeInt address value .i32
  | .i64 => storeInt address value .i64
  | .i128 => storeInt address value .i128
  | .f32 =>
    match value with
    | .float x => writeWord address 4 x.toSingleBits
    | v => throw (.cannotStore v .f32)
  | .f64 =>
    match value with
    | .float x => writeWord address 8 x.bits.toNat
    | v => throw (.cannotStore v .f64)
  | .f16 => throw (.unsupportedValue .f16)
  | .bf16 => throw (.unsupportedValue .bf16)
  | .f128 => throw (.unsupportedValue .f128)
  | .ptr target => storePtr address value (.ptr target)
  | .function ret params isVariadic => storePtr address value (.function ret params isVariadic)
  | .array element length =>
    match value with
    | .aggregate items =>
      items.zipIdx.forM fun (item, i) => store (address + layout.sizeOf element * i) item element
    | v => throw (.cannotStore v (.array element length))
  | .vector element lanes =>
    match value with
    | .aggregate items =>
      items.zipIdx.forM fun (item, i) => store (address + layout.sizeOf element * i) item element
    | v => throw (.cannotStore v (.vector element lanes))
  | .struct fields isPacked name =>
    match value with
    | .aggregate items => storeFields address items (layout.fieldOffsets fields isPacked) fields
    | v => throw (.cannotStore v (.struct fields isPacked name))

/-- Writes the items of a struct at the offsets of its fields. -/
def storeFields (address : Nat) (items : List Value) (offsets : List Nat) :
    List IrType → EStateM Fault Memory Unit
  | [] => pure ()
  | field :: fields =>
    match items, offsets with
    | item :: items, offset :: offsets => do
      store (address + offset) item field
      storeFields address items offsets fields
    | _, _ => pure ()

/-- Writes an integer in the bytes of an integer type. -/
def storeInt (address : Nat) (value : Value) (type : IrType) : EStateM Fault Memory Unit :=
  match value with
  | .int word _ => writeWord address (layout.sizeOf type) word
  | v => throw (.cannotStore v type)

/-- Writes an address. -/
def storePtr (address : Nat) (value : Value) (type : IrType) : EStateM Fault Memory Unit :=
  match value with
  | .ptr target => writeWord address (layout.sizeOf type) target
  | v => throw (.cannotStore v type)

end

/-- Reads an integer from the bytes of an integer type. -/
def loadInt (m : Memory) (address bits bytes : Nat) : Except Fault Value := do
  return .int (Word.mask bits (← m.readWord address bytes)) bits

/-- Reads `count` items from number `index` on and puts them behind those read before, the last of
which comes first in `done`.  The first fault ends the reading, however many items are left. -/
def loadEach (read : Nat → Except Fault Value) (count index : Nat) (done : List Value) :
    Except Fault (List Value) :=
  match count with
  | 0 => .ok done.reverse
  | count + 1 =>
    match read index with
    | .ok item => loadEach read count (index + 1) (item :: done)
    | .error fault => .error fault

mutual

/-- Reads a value with the layout of a type. -/
def load (m : Memory) (address : Nat) : IrType → Except Fault Value
  | .i1 => m.loadInt address 1 1
  | .i8 => m.loadInt address 8 1
  | .i16 => m.loadInt address 16 2
  | .i32 => m.loadInt address 32 4
  | .i64 => m.loadInt address 64 8
  | .i128 => m.loadInt address 128 16
  | .f32 => do return .float (Double.ofSingleBits (← m.readWord address 4))
  | .f64 => do return .float (Double.ofNat (← m.readWord address 8))
  | .f16 => throw (.unsupportedValue .f16)
  | .bf16 => throw (.unsupportedValue .bf16)
  | .f128 => throw (.unsupportedValue .f128)
  | .ptr _ | .function .. => do return .ptr (← m.readWord address layout.pointerBytes)
  | .array element length => do
    return .aggregate
      (← loadEach (fun i => load m (address + layout.sizeOf element * i) element) length 0 [])
  | .vector element lanes => do
    return .aggregate
      (← loadEach (fun i => load m (address + layout.sizeOf element * i) element) lanes 0 [])
  | .struct fields isPacked _ => do
    return .aggregate (← loadFields m address (layout.fieldOffsets fields isPacked) fields)
  | .void => return .void

/-- Reads the fields of a struct at their offsets. -/
def loadFields (m : Memory) (address : Nat) (offsets : List Nat) :
    List IrType → Except Fault (List Value)
  | [] => pure []
  | field :: fields =>
    match offsets with
    | [] => pure []
    | offset :: offsets => do
      let item ← load m (address + offset) field
      return item :: (← loadFields m address offsets fields)

end

/-- Reading item by item is reading all of them in order. -/
theorem loadEach_eq (read : Nat → Except Fault Value) (count index : Nat) (done : List Value) :
    loadEach read count index done =
      ((List.range' index count).mapM read).map (done.reverse ++ ·) := by
  induction count generalizing index done with
  | zero => simp [loadEach, pure, Except.pure, Except.map]
  | succ count ih =>
    rw [loadEach, List.range'_succ, List.mapM_cons]
    cases read index with
    | error fault => rfl
    | ok item =>
      refine (ih (index + 1) (item :: done)).trans ?_
      cases (List.range' (index + 1) count).mapM read <;>
        simp [bind, Except.bind, pure, Except.pure, Except.map]

end Memory
end Machine
end UnitCompiler
