import Mathlib
import UnitCompiler.Proofs.Machine.Budget
import UnitCompiler.Proofs.Machine.Footprint
import UnitCompiler.Proofs.Types.NaturalLayout

/-!
# Allocation

An allocated region starts at a multiple of its alignment, behind all the memory there was, and all its
bytes are zero.  They still are when the zero of a type has been stored there.
-/

namespace UnitCompiler

/-- Rounding up that stays below the largest 64-bit integer finds the next multiple. -/
theorem isNextMultiple_alignUp {value alignment : Nat} (ha : 0 < alignment)
    (h : alignUp value alignment < maxU64) : IsNextMultiple alignment value (alignUp value alignment) := by
  have hle := Machine.le_alignUp h
  cases hfound : alignUp? value alignment with
  | none =>
    have hmax : alignUp value alignment = maxU64 := by rw [alignUp, hfound, Option.getD_none]
    omega
  | some n =>
    rw [alignUp_of_alignUp? hfound]
    exact ((alignUp?_eq_some_iff ha (hle.trans h.le)).mp hfound).1

namespace Machine

attribute [local instance (high)] instPowNat

/-- A memory with a region behind what was there: so many bytes, but at least one, at a multiple of the
alignment.  Everything added is zero. -/
structure Memory.Appends (m : Memory) (count align a : Nat) (m' : Memory) : Prop where
  grows : Grows m m'
  behind : m.size ≤ a
  dvd : max align 1 ∣ a
  size : m'.size = a + max count 1
  limit : m'.size ≤ memoryLimit
  zero : ∀ i, m.size ≤ i → i < m'.size → m'.bytes[i]? = some 0

theorem Memory.appends_of_allocate {count align a : Nat} {m m' : Memory}
    (h : Memory.allocate count align m = .ok a m') : m.Appends count align a m' := by
  obtain ⟨rfl, hstop, rfl⟩ := Memory.of_allocate h
  have hlimit : memoryLimit < maxU64 := by decide
  have hnext : IsNextMultiple (max align 1) m.size (alignUp m.size (max align 1)) :=
    isNextMultiple_alignUp (by omega) (by omega)
  have hle := hnext.le.trans (Nat.le_add_right _ (max count 1))
  have hsize := Memory.size_extend hstop hle
  refine ⟨Memory.grows_extend hstop hle, hnext.le, hnext.dvd, hsize, hsize.trans_le hstop, ?_⟩
  intro i hlo hhi
  rw [hsize] at hhi
  have hget : (m.extend _ hstop).bytes[i]? =
      (Array.replicate (alignUp m.size (max align 1) + max count 1 - m.size) 0)[i - m.size]? :=
    Array.getElem?_append_right hlo
  rw [hget, Array.getElem?_replicate, if_pos (by omega)]

/-! ### Zeros -/

namespace Memory

/-- A run on memory that writes nothing but zero bytes. -/
def Clears (run : EStateM Fault Memory Unit) : Prop :=
  ∀ (m : Memory) (i : Nat), (after (run m)).bytes[i]? = m.bytes[i]? ∨ (after (run m)).bytes[i]? = some 0

namespace Clears

variable {run run' : EStateM Fault Memory Unit}

theorem pure : Clears (pure ()) := fun _ _ => Or.inl rfl

theorem throw (e : Fault) : Clears (throw e) := fun _ _ => Or.inl rfl

theorem writeWord_zero (a count : Nat) : Clears (writeWord a count 0) := by
  intro m i
  have hzero : ∀ (count k : Nat) (b : UInt8), (lowBytes count 0)[k]? = some b → b = 0 := by
    intro count
    induction count with
    | zero => nofun
    | succ count ih =>
      intro k b hb
      cases k with
      | zero =>
        cases hb
        rfl
      | succ k => exact ih k b hb
  obtain ⟨e, h, -⟩ | ⟨-, h⟩ := writeWord_cases m a count 0
  · rw [h]
    exact Or.inl rfl
  · rw [h]
    simp only [after, getElem?_write, length_lowBytes]
    split_ifs with hin
    · right
      have hk : i - a < (lowBytes count 0).length := by
        rw [length_lowBytes]
        omega
      have hget := List.getElem?_eq_getElem hk
      rw [hget, hzero count (i - a) _ hget]
    · exact Or.inl rfl

theorem seq (h : Clears run) (h' : Clears run') : Clears (run >>= fun _ => run') := by
  intro m i
  have hfirst := h m i
  simp only [bind, EStateM.bind]
  cases hrun : run m with
  | error e m₁ =>
    rw [hrun] at hfirst
    exact hfirst
  | ok u m₁ =>
    rw [hrun] at hfirst
    rcases h' m₁ i with hsame | hzero
    · simp only [after] at hfirst hsame ⊢
      rw [hsame]
      exact hfirst
    · exact Or.inr hzero

theorem forM {α : Type} {f : α → EStateM Fault Memory Unit} (l : List α) (h : ∀ x ∈ l, Clears (f x)) :
    Clears (l.forM f) := by
  induction l with
  | nil => exact pure
  | cons x l ih =>
    rw [List.forall_mem_cons] at h
    exact h.1.seq (ih h.2)

end Clears

/-- The parts of a zero are zeros. -/
theorem eq_zero_of_mem_parts {type : IrType} {part : (Nat × IrType) × Value}
    (h : part ∈ type.parts (.zero type)) : part.2 = .zero part.1.2 := by
  cases type with
  | array element length | vector element length =>
    obtain ⟨⟨item, i⟩, hitem, rfl⟩ := List.mem_map.mp h
    exact List.eq_of_mem_replicate (List.mem_of_getElem? (List.mem_zipIdx_iff_getElem?.mp hitem))
  | struct fields isPacked name =>
    have hzeros (fields : List IrType) : ∀ offsets : List Nat,
        ∀ part ∈ (offsets.zip fields).zip (Value.zeros fields), part.2 = .zero part.1.2 := by
      induction fields with
      | nil => simp
      | cons field rest ih =>
        intro offsets part hpart
        cases offsets with
        | nil => simp at hpart
        | cons offset offsets =>
          rw [Value.zeros, List.zip_cons_cons, List.zip_cons_cons, List.mem_cons] at hpart
          rcases hpart with rfl | hpart
          · rfl
          · exact ih offsets part hpart
    exact hzeros fields _ part h
  | _ => simp [IrType.parts] at h

/-- Storing the zero of a type writes nothing but zero bytes. -/
theorem clears_store_zero (type : IrType) : ∀ a, Clears (store a (.zero type) type) := by
  induction type using IrType.parts_induction with
  | step type ih =>
    intro a
    cases haggregate : type.isAggregate with
    | false =>
      cases type with
      | array | vector | struct => cases haggregate
      | void => exact .pure
      | f16 | bf16 | f128 => exact .throw _
      | i1 | i8 | i16 | i32 | i64 | i128 | f32 | f64 | ptr | function => exact .writeWord_zero _ _
    | true =>
      obtain ⟨items, hitems⟩ : ∃ items, Value.zero type = .aggregate items := by
        cases type <;> first | exact ⟨_, rfl⟩ | cases haggregate
      have hstore := store_eq_forM haggregate items a
      rw [hitems, hstore]
      apply Clears.forM
      rintro ⟨piece, item⟩ hpart
      rw [← hitems] at hpart
      obtain rfl : item = .zero piece.2 := eq_zero_of_mem_parts hpart
      exact ih _ _ hpart (a + piece.1)

/-- A zero stored in a new region leaves it new. -/
theorem Appends.store_zero {m m₁ m₂ : Memory} {type : IrType} {align a : Nat}
    (h : m.Appends (layout.sizeOf type) align a m₁) (hstore : store a (.zero type) type m₁ = .ok () m₂) :
    m.Appends (layout.sizeOf type) align a m₂ := by
  have hsize := h.size
  have hlimit := m₁.size_lt_maxU64
  obtain ⟨hrewrites, -⟩ := confined_of_hasRoom (by omega) (IrType.hasRoom_zero type) m₁ a (by omega)
  have hclears := clears_store_zero type a m₁
  rw [hstore] at hrewrites hclears
  simp only [after] at hrewrites hclears
  refine ⟨⟨?_, fun i hi => ?_⟩, h.behind, h.dvd, ?_, ?_, fun i hlo hhi => ?_⟩
  · rw [hrewrites.size]
    exact h.grows.size
  · rw [hrewrites.bytes i (Or.inl (hi.trans_le h.behind)), h.grows.bytes i hi]
  · rw [hrewrites.size, h.size]
  · rw [hrewrites.size]
    exact h.limit
  · rw [hrewrites.size] at hhi
    rcases hclears i with hsame | hzero
    · exact hsame.trans (h.zero i hlo hhi)
    · exact hzero

end Memory

/-- What an `alloca` gives: a new region for its type, aligned as it asks. -/
theorem appends_of_perform_alloca {i : Image} {caller : Caller} {frame : Frame} {result slot : IrType} {align : Nat}
    {s s' : State} {v : Value} (h : perform i caller frame result (.alloca slot align) s = .ok v s') :
    ∃ a, v = .ptr a ∧ s'.steps = s.steps ∧
      s.memory.Appends (layout.sizeOf slot) align a s'.memory := by
  simp only [perform] at h
  rw [bind_apply, onMemory] at h
  cases hallocate : Memory.allocate (layout.sizeOf slot) align s.memory with
  | error e m =>
    rw [hallocate] at h
    cases h
  | ok a m₁ =>
    rw [hallocate] at h
    simp only at h
    rw [bind_apply, onMemory] at h
    cases hstore : Memory.store a (.zero slot) slot m₁ with
    | error e m₂ =>
      simp only [hstore] at h
      cases h
    | ok u m₂ =>
      simp only [hstore] at h
      cases h
      exact ⟨a, rfl, rfl, (Memory.appends_of_allocate hallocate).store_zero hstore⟩

end Machine
end UnitCompiler
