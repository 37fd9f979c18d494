import Mathlib
import UnitCompiler.Proofs.Machine.Allocation
import UnitCompiler.Proofs.Machine.Paths

/-!
# Bytes read as another type

A store writes the same bytes at every address, and a load reads them alike.  So a value that is stored
as one type in a new region and loaded as another one is the value that comes of a buffer of zeros.  An
array of bytes as long as the type gives the stored value back.
-/

namespace UnitCompiler
namespace Machine

attribute [local instance (high)] instPowNat

namespace Memory

/-- The bytes of two memories agree, counted from an address in each. -/
def Mirrors (m n : Memory) (a b count : Nat) : Prop :=
  ∀ k, k < count → m.bytes[a + k]? = n.bytes[b + k]?

section Loads

variable {m n : Memory} {a b count : Nat}

theorem Mirrors.part (h : m.Mirrors n a b count) {offset count' : Nat} (hle : offset + count' ≤ count) :
    m.Mirrors n (a + offset) (b + offset) count' := by
  intro k hk
  rw [Nat.add_assoc, Nat.add_assoc]
  exact h (offset + k) (by omega)

theorem Mirrors.readWord (h : m.Mirrors n a b count) (ha : memoryBase ≤ a ∧ a + count ≤ m.size)
    (hb : memoryBase ≤ b ∧ b + count ≤ n.size) : m.readWord a count = n.readWord b count := by
  have hbytes : m.bytes.extract a (a + count) = n.bytes.extract b (b + count) := by
    apply Array.ext_getElem?
    intro i
    rw [getElem?_extract_range, getElem?_extract_range]
    split_ifs with hi
    · exact h i hi
    · rfl
  rw [readWord_eq (checkAccess_eq_ok.mpr ha), readWord_eq (checkAccess_eq_ok.mpr hb), hbytes]

theorem forall₂_of_mem {α β : Type} {R S : α → β → Prop} {l : List α} {l' : List β}
    (h : List.Forall₂ R l l') (himp : ∀ a ∈ l, ∀ b, R a b → S a b) : List.Forall₂ S l l' := by
  have hmem := (List.forall₂_and_left _ _).mpr ⟨fun _ ha => ha, h⟩
  exact hmem.imp fun a b hab => himp a hab.1 b hab.2

/-- What is loaded depends on the bytes of the type and not on where they are. -/
theorem Mirrors.load (type : IrType) : ∀ {a b : Nat} {v : Value}, layout.sizeOf type < maxU64 →
    m.Mirrors n a b (layout.sizeOf type) → memoryBase ≤ a ∧ a + layout.sizeOf type ≤ m.size →
      memoryBase ≤ b ∧ b + layout.sizeOf type ≤ n.size → m.load a type = .ok v → n.load b type = .ok v := by
  induction type using IrType.pieces_induction with
  | step type ih =>
    intro a b v hs h ha hb hload
    cases haggregate : type.isAggregate with
    | false =>
      have hword := h.readWord ha hb
      cases type with
      | array | vector | struct => cases haggregate
      | void | f16 | bf16 | f128 => exact hload
      | i1 | i8 | i16 | i32 | i64 | i128 =>
        rw [DataLayout.sizeOf] at hword
        simpa only [Memory.load, loadInt, hword] using hload
      | f32 | f64 | ptr | function =>
        rw [DataLayout.sizeOf] at hword
        simpa only [Memory.load, hword] using hload
    | true =>
      obtain ⟨items, rfl, hitems⟩ := (load_eq_ok_iff haggregate).mp hload
      refine (load_eq_ok_iff haggregate).mpr ⟨items, rfl, forall₂_of_mem hitems ?_⟩
      intro piece hpiece item hitem
      have hle := IrType.piece_le hs hpiece
      refine ih piece hpiece (IrType.piece_lt hs hpiece) (h.part hle) ?_ ?_ hitem
      · exact ⟨by omega, by omega⟩
      · exact ⟨by omega, by omega⟩

end Loads

/-! ### Stores -/

/-- A run at an address that, where it succeeds, writes the same bytes at every address. -/
def Relocatable (run : Nat → EStateM Fault Memory Unit) : Prop :=
  ∀ (a b offset count : Nat) (m m' n n' : Memory), run (a + offset) m = .ok () m' →
    run (b + offset) n = .ok () n' → m.Mirrors n a b count → m'.Mirrors n' a b count

theorem seq_eq_ok {x y : EStateM Fault Memory Unit} {m m' : Memory}
    (h : (x >>= fun _ => y) m = .ok () m') : ∃ m₁, x m = .ok () m₁ ∧ y m₁ = .ok () m' := by
  simp only [bind, EStateM.bind] at h
  cases hx : x m with
  | error e m₁ =>
    rw [hx] at h
    cases h
  | ok u m₁ =>
    rw [hx] at h
    exact ⟨m₁, rfl, h⟩

namespace Relocatable

variable {run run' : Nat → EStateM Fault Memory Unit}

theorem pure : Relocatable fun _ => pure () := by
  intro a b offset count m m' n n' hm hn h
  cases hm
  cases hn
  exact h

theorem throw (e : Fault) : Relocatable fun _ => throw e := by
  intro a b offset count m m' n n' hm
  cases hm

theorem writeWord (bytes word : Nat) : Relocatable fun a => writeWord a bytes word := by
  intro a b offset count m m' n n' hm hn h k hk
  obtain ⟨e, hm', -⟩ | ⟨⟨-, hstop⟩, hm'⟩ := writeWord_cases m (a + offset) bytes word
  · cases hm'.symm.trans hm
  obtain ⟨e, hn', -⟩ | ⟨⟨-, hstop'⟩, hn'⟩ := writeWord_cases n (b + offset) bytes word
  · cases hn'.symm.trans hn
  cases hm'.symm.trans hm
  cases hn'.symm.trans hn
  simp only [getElem?_write, length_lowBytes]
  by_cases hin : offset ≤ k ∧ k < offset + bytes
  · have hsub : a + k - (a + offset) = b + k - (b + offset) := by omega
    rw [if_pos (by omega), if_pos (by omega), hsub]
  · rw [if_neg (by omega), if_neg (by omega)]
    exact h k hk

theorem seq (h : Relocatable run) (h' : Relocatable run') : Relocatable fun a => run a >>= fun _ => run' a := by
  intro a b offset count m m' n n' hm hn hmirrors
  obtain ⟨m₁, hm₁, hm'⟩ := seq_eq_ok hm
  obtain ⟨n₁, hn₁, hn'⟩ := seq_eq_ok hn
  exact h' a b offset count _ _ _ _ hm' hn' (h a b offset count _ _ _ _ hm₁ hn₁ hmirrors)

theorem shift (h : Relocatable run) (place : Nat) : Relocatable fun a => run (a + place) := by
  intro a b offset count m m' n n' hm hn hmirrors
  simp only [Nat.add_assoc] at hm hn
  exact h a b (offset + place) count _ _ _ _ hm hn hmirrors

theorem forM {α : Type} {f : α → Nat → EStateM Fault Memory Unit} (l : List α)
    (h : ∀ x ∈ l, Relocatable (f x)) : Relocatable fun a => l.forM fun x => f x a := by
  induction l with
  | nil => exact pure
  | cons x l ih =>
    rw [List.forall_mem_cons] at h
    exact h.1.seq (ih h.2)

end Relocatable

/-- A memory of so many zero bytes behind the addresses that are never handed out. -/
def zeros (count : Nat) (h : memoryBase + count ≤ memoryLimit) : Memory :=
  ⟨Array.replicate (memoryBase + count) 0, Array.size_replicate.trans_le h⟩

variable {count : Nat} (h : memoryBase + count ≤ memoryLimit)

theorem size_zeros : (zeros count h).size = memoryBase + count := Array.size_replicate

theorem getElem?_zeros {k : Nat} (hk : k < count) : (zeros count h).bytes[memoryBase + k]? = some 0 := by
  change (Array.replicate (memoryBase + count) 0)[memoryBase + k]? = _
  rw [Array.getElem?_replicate, if_pos (by omega)]

end Memory

/-- A buffer of zeros, as large as the larger of both types, in which a value has been written at the
first.  The bytes that the value does not cover are zero. -/
structure Buffers (v : Value) (source wanted : IrType) (m : Memory) : Prop where
  room : memoryBase + max (layout.sizeOf source) (layout.sizeOf wanted) ≤ memoryLimit
  store : Memory.store memoryBase v source (.zeros _ room) = .ok () m
  rest : ∀ k, k < max (layout.sizeOf source) (layout.sizeOf wanted) → ¬source.Writes v k →
    m.bytes[memoryBase + k]? = some 0

/-- The value `w` is read at the second type where the value `v` has been written at the first. -/
def Rereads (v : Value) (source wanted : IrType) (w : Value) : Prop :=
  ∃ m, Buffers v source wanted m ∧ m.load memoryBase wanted = .ok w

section Rereading

variable {source wanted : IrType} {v : Value}

theorem Buffers.size {m : Memory} (h : Buffers v source wanted m) :
    m.size = memoryBase + max (layout.sizeOf source) (layout.sizeOf wanted) := by
  have hsize := (Memory.overwrites_store source v memoryBase).size (.zeros _ h.room)
  rw [h.store, Memory.size_zeros] at hsize
  exact hsize

theorem buffers_of_store {m : Memory}
    (hroom : memoryBase + max (layout.sizeOf source) (layout.sizeOf wanted) ≤ memoryLimit)
    (h : Memory.store memoryBase v source (.zeros _ hroom) = .ok () m) : Buffers v source wanted m := by
  refine ⟨hroom, h, fun k hk hwrites => ?_⟩
  have hrest := (Memory.overwrites_store source v memoryBase).rest (.zeros _ hroom) (memoryBase + k) ?_
  · rw [h, Memory.getElem?_zeros hroom hk] at hrest
    exact hrest
  · rintro ⟨k', hk', heq⟩
    obtain rfl : k = k' := by omega
    exact hwrites hk'

theorem exists_buffers (hv : source.Admits v)
    (hroom : memoryBase + max (layout.sizeOf source) (layout.sizeOf wanted) ≤ memoryLimit) :
    ∃ m, Buffers v source wanted m ∧ m.load memoryBase source = .ok v := by
  have hlimit : memoryLimit < maxU64 := by decide
  obtain ⟨m, hstore, -, hload⟩ := Memory.keeps source hv (.zeros _ hroom) (by omega)
    ⟨le_refl _, by rw [Memory.size_zeros]; omega⟩
  exact ⟨m, buffers_of_store hroom hstore, hload⟩

/-- The buffer holds the value that was written. -/
theorem Buffers.load {m : Memory} (h : Buffers v source wanted m) (hv : source.Admits v) :
    m.load memoryBase source = .ok v := by
  obtain ⟨n, hn, hload⟩ := exists_buffers hv h.room
  cases h.store.symm.trans hn.store
  exact hload

/-- The struct of one array of bytes. -/
def byteRow (count : Nat) (name : Option String) : IrType := .struct [.array .i8 count] false name

end Rereading

end Machine
end UnitCompiler
