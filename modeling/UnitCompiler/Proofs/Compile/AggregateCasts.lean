import UnitCompiler.Proofs.Compile.Actions
import UnitCompiler.Proofs.Machine.Loading
import UnitCompiler.Proofs.Machine.Reinterpretation
import UnitCompiler.Proofs.Machine.StraightLine
import UnitCompiler.Proofs.Types.Cycles

/-!
# Casts between aggregates

The code for a cast writes the value to a slot with room for both aggregates and reads it there as the
other one.  What it does not write is zero, in either order of the sizes.
-/

namespace UnitCompiler

attribute [local instance (high)] instPowNat

open Machine

namespace Machine

theorem Memory.Appends.allots {m m' : Memory} {count align a : Nat} (h : m.Appends count align a m') :
    Allots m m' a count := by
  have hsize := h.size
  exact ⟨h.grows, h.behind, by omega⟩

section Steps

variable {image : Image} {caller : Caller} {b : FunctionBuilder} {frame : Frame} {s : State} {v : Value}
  {type : IrType} {o o' : Operand} {a : Nat}

end Steps

theorem admits_zero_of_hasFloat {type : IrType} (h : type.hasFloat = false) : type.Admits (.zero type) :=
  admits_of_hasShape (hasShape_zero type) h (isReduced_zero type)

/-! ### The code of a cast -/

/-- The operand stands for a value with a property, and the memory has at most so many bytes more behind
those that were there. -/
def Makes (image : Image) (m : Memory) (room : Nat) (P : Value → Prop) (type : IrType) (o : Operand)
    (b : FunctionBuilder) (frame : Frame) (s : State) : Prop :=
  ∃ w, P w ∧ type.Admits w ∧ Gives image w type s.memory o b frame s ∧ Grows m s.memory ∧
    s.memory.size ≤ m.size + room

section Slots

variable {image : Image} {caller : Caller} {b : FunctionBuilder} {frame : Frame} {s : State} {v : Value}
  {source wanted : IrType} {o : Operand}

end Slots

/-- The code between two builders turns each value of one type into a value of another. -/
def Turns (b b' : FunctionBuilder) (o r : Operand) (source wanted : IrType) (room : Nat)
    (f : Value → Value → Prop) : Prop :=
  ∀ (image : Image) (caller : Caller) (frame : Frame) (s : State) (v : Value), source.Admits v →
    o.Below b.nextValue → Carries image frame o v source → memoryBase ≤ s.memory.size →
    s.memory.size + room ≤ memoryLimit →
    ∃ code frame' s', Runs image caller b b' code frame frame' s s' ∧
      Makes image s.memory room (f v) wanted r b' frame' s'

namespace Turns

variable {b b' b'' : FunctionBuilder} {o r q : Operand} {source middle wanted : IrType} {room room' : Nat}
  {f g : Value → Value → Prop}

theorem trans (h : Turns b b' o r source middle room f) (h' : Turns b' b'' r q middle wanted room' g) :
    Turns b b'' o q source wanted (room + room') fun v w => ∃ u, f v u ∧ g u w := by
  intro image caller frame s v hv hbelow ho hbase hroom
  obtain ⟨code, frame', s', hruns, u, hf, hu, hgives, hgrows, hsize⟩ :=
    h image caller frame s v hv hbelow ho hbase (by omega)
  obtain ⟨code', frame'', s'', hruns', w, hg, hw, hgives', hgrows', hsize'⟩ :=
    h' image caller frame' s' u hu hgives.below hgives.carries (hbase.trans hgrows.size) (by omega)
  exact ⟨code ++ code', frame'', s'', hruns.trans hruns', w, ⟨u, hf, hg⟩, hw, hgives',
    hgrows.trans hgrows', by omega⟩

end Turns

end Machine

open SourceType

/-- Lowering depends on the name of an aggregate alone. -/
theorem lower_of_aggregateName? {s : SymbolTables} {a b : SourceType} {name : String}
    (ha : a.aggregateName? = some name) (hb : b.aggregateName? = some name) : s.lower a = s.lower b := by
  rw [SymbolTables.lower, SymbolTables.lower, lowerWith_of_aggregateName? ha, lowerWith_of_aggregateName? hb]

namespace CompileM

variable {p : Performer} {c : Context} {F : FunctionState} {value : Rvalue} {target : SourceType}
  {location : Location} {source wanted : IrType} {name name' : String}

end CompileM

/-- The aggregate has one field, an array of so many bytes. -/
def SymbolTables.IsByteRow (s : SymbolTables) (type : SourceType) (count : Nat) : Prop :=
  ∃ name row element, type.aggregateName? = some name ∧ s.fieldTypes? name = some [row] ∧
    row.strip = .array element (.fixed count) ∧ element.strip = .scalar .uchar

theorem SymbolTables.IsByteRow.lowered {s : SymbolTables} {type : SourceType} {count : Nat}
    {machine : IrType} (h : s.IsByteRow type count) (hl : Lowered s type machine) :
    ∃ name, machine = byteRow count name := by
  obtain ⟨name, row, element, hname, hfields, hrow, helement⟩ := h
  obtain ⟨fields, machines, hfields', hall, rfl⟩ := hl.of_aggregateName? hname
  cases hfields.symm.trans hfields'
  cases hall with
  | cons hfield hrest =>
    cases hrest
    have hfield := hfield.strip
    rw [hrow] at hfield
    cases hfield with
    | array length hinner =>
      have hinner := hinner.strip
      rw [helement] at hinner
      cases hinner
      exact ⟨some name, rfl⟩

/-- The struct `Pair` of a flag and a number, which has a byte between them, and the row `Raw` of six bytes. -/
def pairs : SymbolTables where
  aggregates := ⟨[
    ("Pair", {
      decl := ⟨0⟩, name := "Pair", base := none, isInstance := false, space := [], subst := {}
      fields := [⟨"held", .scalar .bool, 0, none⟩, ⟨"code", .scalar .short, 1, none⟩] }),
    ("Raw", {
      decl := ⟨1⟩, name := "Raw", base := none, isInstance := false, space := [], subst := {}
      fields := [⟨"bytes", .array (.scalar .uchar) (.fixed 6), 0, none⟩] })]⟩

end UnitCompiler
