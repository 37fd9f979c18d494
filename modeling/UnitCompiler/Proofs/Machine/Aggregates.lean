import Mathlib
import UnitCompiler.Proofs.Machine.Instructions
import UnitCompiler.Proofs.Machine.Storage

/-!
# Instructions on values of any type

What single instructions do with values in memory and in registers: slots, stores and loads, the
addresses of fields, the items of aggregates, and the bits of words.
-/

namespace UnitCompiler
namespace Machine

attribute [local instance (high)] instPowNat

/-- An operand stands for a value of a type in a frame. -/
structure Carries (i : Image) (frame : Frame) (o : Operand) (v : Value) (type : IrType) : Prop where
  eval : i.eval frame o = .ok v
  typeOf : frame.typeOf o = .ok type

theorem Agrees.carries {lo hi : Nat} {frame frame' : Frame} (h : Agrees lo hi frame frame') {i : Image}
    {o : Operand} {v : Value} {type : IrType} (hv : Carries i frame o v type) (ho : o.Below lo) :
    Carries i frame' o v type := by
  have hout : ∀ r, o = .register r → r < lo ∨ hi ≤ r := by
    rintro r rfl
    exact Or.inl ho
  exact ⟨(h.eval i hout).trans hv.eval, (h.typeOf hout).trans hv.typeOf⟩

/-! ### Slots -/

/-- A range behind all memory that was there. -/
structure Allots (m m' : Memory) (a count : Nat) : Prop where
  grows : Grows m m'
  behind : m.size ≤ a
  inside : a + count ≤ m'.size

/-- What is written in a new range leaves the memory before it alone. -/
theorem Allots.rewrites {m m' m'' : Memory} {a count a' count' : Nat} (h : Allots m m' a count)
    (hw : m'.Rewrites m'' a' count') (ha : a ≤ a') : Allots m m'' a count := by
  refine ⟨⟨h.grows.size.trans_eq hw.size.symm, fun i hi => ?_⟩, h.behind, ?_⟩
  · rw [hw.bytes i (Or.inl (hi.trans_le (h.behind.trans ha))), h.grows.bytes i hi]
  · rw [hw.size]
    exact h.inside

/-- The register of an instruction with a result. -/
theorem carries_keep (image : Image) (frame : Frame) {i : Instruction} {result : IrType}
    (htype : i.type = some result) (hvoid : result.isVoid = false) (v : Value) :
    Carries image (frame.keep i v) (.register i.id) v result := by
  have hreg := getElem?_keep frame htype hvoid v
  exact ⟨by simp only [Image.eval, hreg], by simp only [Frame.typeOf, hreg]⟩

/-- The bytes that a slot may take, with those in front of it. -/
def slotRoom (d : DataLayout) (type : IrType) : Nat := d.alignOf type + layout.sizeOf type + 1

theorem allocate_of_room {count align : Nat} {m : Memory}
    (hroom : m.size + align + count + 1 ≤ memoryLimit) :
    ∃ a m', Memory.allocate count align m = .ok a m' ∧ Allots m m' a count ∧
      m'.size ≤ m.size + align + count + 1 := by
  have hlimit : memoryLimit < maxU64 := by decide
  have hle : alignUp m.size (max align 1) + 1 ≤ m.size + max align 1 := alignUp_le _ _
  have hstart : m.size ≤ alignUp m.size (max align 1) := le_alignUp (by omega)
  have hstop : alignUp m.size (max align 1) + max count 1 ≤ memoryLimit := by omega
  have hbehind := hstart.trans (Nat.le_add_right _ (max count 1))
  have hsize := Memory.size_extend hstop hbehind
  exact ⟨_, _, Memory.allocate_eq hstop, ⟨Memory.grows_extend hstop hbehind, hstart, by omega⟩, by omega⟩

section Memory

variable {image : Image} (caller : Caller) {frame : Frame} {o o' : Operand} {v : Value}
  {type : IrType} (result : IrType) {a : Nat}

theorem evalPtr_of_eval (h : image.eval frame o = .ok (.ptr a)) : image.evalPtr frame o = .ok a := by
  simp [Image.evalPtr, h, bind, Except.bind, pure, Except.pure]

/-- With room in memory a slot is made, holding a zero. -/
theorem perform_slot (hv : type.Admits v) {m : Memory} {align : Nat} (hbase : memoryBase ≤ m.size)
    (hroom : m.size + align + layout.sizeOf type + 1 ≤ memoryLimit) :
    ∃ a m', Allots m m' a (layout.sizeOf type) ∧ m'.size ≤ m.size + align + layout.sizeOf type + 1 ∧
      ∀ s : State, s.memory = m → perform image caller frame result (.alloca type align) s =
        .ok (.ptr a) { s with memory := m' } := by
  have hlimit : memoryLimit < maxU64 := by decide
  obtain ⟨a, m₁, hallocate, hallots, hsize⟩ := allocate_of_room hroom
  obtain ⟨m', hstore, hrewrites, -⟩ := Memory.keeps type (admits_zero type hv) m₁ (by omega)
    ⟨hbase.trans hallots.behind, hallots.inside⟩
  refine ⟨a, m', hallots.rewrites hrewrites (le_refl _), hrewrites.size.trans_le hsize, ?_⟩
  intro s hs
  simp only [perform]
  rw [bind_apply, onMemory, hs, hallocate]
  simp only
  rw [bind_apply, onMemory, hstore]
  rfl

/-- A value is stored at any place with room for it. -/
theorem perform_keep (hv : Carries image frame o v type) (hadmits : type.Admits v)
    (ho : image.eval frame o' = .ok (.ptr a)) {m : Memory} (hs : layout.sizeOf type < maxU64)
    (ha : memoryBase ≤ a ∧ a + layout.sizeOf type ≤ m.size) :
    ∃ m', m.Rewrites m' a (layout.sizeOf type) ∧ m'.load a type = .ok v ∧
      ∀ s : State, s.memory = m → perform image caller frame result (.store o o' none false) s =
        .ok .void { s with memory := m' } := by
  obtain ⟨m', hstore, hrewrites, hload⟩ := Memory.keeps type hadmits m hs ha
  refine ⟨m', hrewrites, hload, ?_⟩
  intro s hs
  simp only [perform, hv.typeOf, hv.eval, evalPtr_of_eval ho, liftFault, pure_bind]
  rw [bind_apply, onMemory, hs, hstore]
  rfl

theorem perform_read {s : State} (ho : image.eval frame o = .ok (.ptr a))
    (h : s.memory.load a type = .ok v) :
    perform image caller frame type (.load o none false) s = .ok v s := by
  simp only [perform, evalPtr_of_eval ho, liftFault, pure_bind]
  change liftFault (s.memory.load a type) s = _
  rw [h]
  rfl

/-- A pointer keeps its address whatever it is taken to point to. -/
theorem perform_view (ho : Carries image frame o (.ptr a) (.ptr type)) (target : IrType) (s : State) :
    perform image caller frame result (.convert .bitcast o (.ptr target)) s = .ok (.ptr a) s := by
  simp only [perform, ho.typeOf, ho.eval, liftFault, pure_bind]
  rfl

end Memory

/-! ### Addresses of fields -/

theorem toInt_constI32 {index : Nat} (h : index < 2 ^ 31) :
    Word.toInt 32 (Word.ofInt 32 (index : Int)) = index := by
  have hmod : Word.modulus 32 = 2 ^ 32 := rfl
  have hbits : ¬ (32 : Nat) = 0 := by decide
  rw [Word.toInt, if_neg hbits, Word.coe_ofInt, hmod, Int.bmod_def]
  push_cast
  omega

theorem eval_constI32 (image : Image) (frame : Frame) {index : Nat} (h : index < 2 ^ 31) :
    ∃ value, image.eval frame (constI32 index) = .ok value ∧ value.signed? = some (index : Int) := by
  refine ⟨_, rfl, ?_⟩
  exact congrArg some (toInt_constI32 h)

theorem toU64_natCast {n : Nat} (h : n ≤ maxU64) : toU64 n = n := by
  unfold toU64 maxU64 at *
  omega

theorem perform_fieldAddress {image : Image} (caller : Caller) {frame : Frame} {o : Operand} {a : Nat}
    {fields : List IrType} {isPacked : Bool} {name : Option String} (result : IrType) {s : State}
    (ho : Carries image frame o (.ptr a) (.ptr (.struct fields isPacked name))) {index offset : Nat}
    {field : IrType} (hindex : index < 2 ^ 31)
    (hoffset : (layout.fieldOffsets fields isPacked)[index]? = some offset)
    (hfield : fields[index]? = some field) (ha : a + offset ≤ maxU64) :
    perform image caller frame result (.elementPtr o [constI32 0, constI32 index] true) s =
      .ok (.ptr (a + offset)) s := by
  have hfirst : image.eval frame (constI32 0) = .ok (.ofInt 0 32) := rfl
  have hzero : (Value.ofInt 0 32).signed? = some 0 := by decide
  obtain ⟨second, hsecond, hsigned⟩ := eval_constI32 image frame hindex
  have hplace : toU64 (index : Int) = index := toU64_natCast (hindex.le.trans (by decide))
  have hstep : indexStep (.struct fields isPacked name) index = .ok (offset, field) := by
    simp only [indexStep, hplace, hoffset, hfield]
  have haddress : elementAddress image frame o [constI32 0, constI32 index] =
      .ok (.ptr (a + offset)) := by
    have hsum : ((a : Int) + 0 * layout.sizeOf (.struct fields isPacked name) + offset) =
        ((a + offset : Nat) : Int) := by
      push_cast
      ring
    simp only [elementAddress, ho.typeOf, evalPtr_of_eval ho.eval, IrType.pointee?, hfirst, hzero,
      hsecond, hsigned, followIndices, hstep, bind, Except.bind, pure, Except.pure, Option.getD_some]
    rw [hsum, toU64_natCast ha]
  simp only [perform, haddress, liftFault]
  rfl

/-! ### Items and words -/

section Words

variable {image : Image} (caller : Caller) {frame : Frame} {o o' : Operand} (result : IrType) {s : State}

theorem perform_extract {items : List Value} {index : Nat} {item : Value}
    (ho : image.eval frame o = .ok (.aggregate items)) (hitem : items[index]? = some item) :
    perform image caller frame result (.extract o [index]) s = .ok item s := by
  simp only [perform, ho, liftFault, pure_bind, extractAt, hitem]
  rfl

theorem perform_wordArith {op : ArithOp} {bits bits' x y z : Nat}
    (ho : image.eval frame o = .ok (.int x bits)) (ho' : image.eval frame o' = .ok (.int y bits'))
    (h : integerArith op bits x y = .ok z) :
    perform image caller frame result (.arith op o o') s = .ok (.int z bits) s := by
  simp only [perform, ho, ho', liftFault, pure_bind, arith, h, Except.map]
  rfl

/-- Narrowing and zero extension keep the low bits. -/
theorem perform_resize {op : ConvertOp} (hop : op = .trunc ∨ op = .zext) {bits target x : Nat}
    {type : IrType} (htype : type.intBits? = some target)
    (ho : image.eval frame o = .ok (.int x bits)) :
    perform image caller frame result (.convert op o type) s =
      .ok (.int (Word.mask target x) target) s := by
  rcases hop with rfl | rfl <;>
    · simp only [perform, ho, liftFault, pure_bind, convertValue, htype, Value.unsigned?,
        Option.getD_some]
      rfl

end Words

end Machine
end UnitCompiler
