import UnitCompiler.Proofs.Machine.IntegerOperations

/-!
# Cells of memory

A cell is a place in memory that holds a number.  Storing a number makes a cell of its place and keeps
every cell apart from it; allocation keeps all cells and gives a place apart from each of them.
-/

namespace UnitCompiler
namespace Machine
namespace Memory

@[simp] theorem length_lowBytes (count n : Nat) : (lowBytes count n).length = count := by
  induction count generalizing n with
  | zero => rfl
  | succ count ih => simp [lowBytes, ih]

theorem ofLowBytes_lowBytes (count n : Nat) : ofLowBytes (lowBytes count n) = n % 256 ^ count := by
  induction count generalizing n with
  | zero => simp [lowBytes, ofLowBytes, Nat.mod_one]
  | succ count ih =>
    have hbyte : n.toUInt8.toNat = n % 256 := rfl
    rw [lowBytes, ofLowBytes, ih, hbyte, Nat.pow_succ', Nat.mod_mul]

theorem getElem?_writeFrom (bytes : Array UInt8) (a : Nat) (l : List UInt8) (i : Nat) :
    (writeFrom bytes a l)[i]? =
      if a ≤ i ∧ i < a + l.length ∧ i < bytes.size then l[i - a]? else bytes[i]? := by
  induction l generalizing bytes a with
  | nil =>
    have h : ¬ (a ≤ i ∧ i < a + ([] : List UInt8).length ∧ i < bytes.size) := by simp; omega
    rw [writeFrom, if_neg h]
  | cons b l ih =>
    rw [writeFrom, ih, Array.size_setIfInBounds, Array.getElem?_setIfInBounds, List.length_cons]
    rcases lt_trichotomy a i with h | rfl | h
    · have hsub : i - a = i - (a + 1) + 1 := by omega
      have hlt : a ≠ i := by omega
      rw [if_neg hlt, hsub, List.getElem?_cons_succ]
      refine if_congr ?_ rfl rfl
      omega
    · by_cases hs : a < bytes.size
      · simp [hs]
      · simp [hs]
    · have hlt : a ≠ i := by omega
      have h1 : ¬ (a + 1 ≤ i ∧ i < a + 1 + l.length ∧ i < bytes.size) := by omega
      have h2 : ¬ (a ≤ i ∧ i < a + (l.length + 1) ∧ i < bytes.size) := by omega
      rw [if_neg h1, if_neg h2, if_neg hlt]

/-- Memory ends far below the last address. -/
theorem size_lt_maxU64 (m : Memory) : m.size < maxU64 := m.size_le.trans_lt (by decide)

@[simp] theorem size_write (m : Memory) (a : Nat) (l : List UInt8) : (m.write a l).size = m.size :=
  size_writeFrom m.bytes a l

theorem getElem?_write (m : Memory) (a : Nat) (l : List UInt8) (i : Nat) :
    (m.write a l).bytes[i]? =
      if a ≤ i ∧ i < a + l.length ∧ i < m.size then l[i - a]? else m.bytes[i]? :=
  getElem?_writeFrom m.bytes a l i

theorem checkAccess_eq_ok {m : Memory} {a count : Nat} :
    m.checkAccess a count = .ok () ↔ memoryBase ≤ a ∧ a + count ≤ m.size := by
  have hsize := m.size_lt_maxU64
  unfold checkAccess
  split_ifs with h1 h2 h3
  · simpa using fun _ => by omega
  · simpa using fun h => absurd h (by omega)
  · simpa using fun _ => h3
  · simp [pure, Except.pure]
    omega

/-- The number in `count` bytes that may be accessed. -/
theorem readWord_eq {m : Memory} {a count : Nat} (h : m.checkAccess a count = .ok ()) :
    m.readWord a count = .ok (ofLowBytes (m.bytes.extract a (a + count)).toList) := by
  simp [readWord, readBytes, h, bind, Except.bind, pure, Except.pure]

/-- The bytes of two memories agree in a range. -/
def SameBytes (m m' : Memory) (a count : Nat) : Prop :=
  ∀ i, a ≤ i → i < a + count → m'.bytes[i]? = m.bytes[i]?

theorem getElem?_extract_range (m : Memory) (a count i : Nat) :
    (m.bytes.extract a (a + count))[i]? = if i < count then m.bytes[a + i]? else none := by
  rw [Array.getElem?_extract]
  by_cases hi : i < count
  · rw [if_pos hi]
    split_ifs with h
    · rfl
    · exact (Array.getElem?_eq_none (by omega)).symm
  · rw [if_neg hi, if_neg (by omega)]

theorem extract_eq_of_sameBytes {m m' : Memory} {a count : Nat} (h : SameBytes m m' a count) :
    m'.bytes.extract a (a + count) = m.bytes.extract a (a + count) := by
  apply Array.ext_getElem?
  intro i
  rw [getElem?_extract_range, getElem?_extract_range]
  split_ifs with hi
  · exact h (a + i) (by omega) (by omega)
  · rfl

theorem toList_extract_write {m : Memory} {a : Nat} {l : List UInt8} (h : a + l.length ≤ m.size) :
    ((m.write a l).bytes.extract a (a + l.length)).toList = l := by
  apply List.ext_getElem?
  intro i
  rw [← Array.getElem?_toList.symm, getElem?_extract_range]
  split_ifs with hi
  · have hin : a ≤ a + i ∧ a + i < a + l.length ∧ a + i < m.size := by omega
    rw [getElem?_write, if_pos hin, Nat.add_sub_cancel_left]
  · exact (List.getElem?_eq_none (by omega)).symm

/-- Memory in which at most the bytes of a range are others. -/
structure Rewrites (m m' : Memory) (a count : Nat) : Prop where
  size : m'.size = m.size
  bytes : ∀ i, (i < a ∨ a + count ≤ i) → m'.bytes[i]? = m.bytes[i]?

/-- A number that fits in the bytes it is written to is read back from them. -/
theorem writeWord_spec {m : Memory} {a count n : Nat} (ha : memoryBase ≤ a ∧ a + count ≤ m.size)
    (hn : n < 256 ^ count) :
    ∃ m', writeWord a count n m = .ok () m' ∧ Rewrites m m' a count ∧
      m'.checkAccess a count = .ok () ∧ m'.readWord a count = .ok n := by
  have hc : m.checkAccess a count = .ok () := checkAccess_eq_ok.mpr ha
  have hlen : (lowBytes count n).length = count := length_lowBytes _ _
  have hc' : (m.write a (lowBytes count n)).checkAccess a count = .ok () := by
    rw [checkAccess_eq_ok, size_write]
    exact ha
  refine ⟨m.write a (lowBytes count n), ?_, ⟨size_write _ _ _, ?_⟩, hc', ?_⟩
  · rw [writeWord, hc]
  · intro i hi
    rw [getElem?_write, if_neg (by omega)]
  · have hlist := toList_extract_write (m := m) (a := a) (l := lowBytes count n) (by omega)
    rw [hlen] at hlist
    rw [readWord_eq hc', hlist, ofLowBytes_lowBytes, Nat.mod_eq_of_lt hn]

theorem size_truncate (m : Memory) (mark : Nat) : (m.truncate mark).size = min mark m.size := by
  simp [truncate, size]

theorem getElem?_truncate (m : Memory) {mark k : Nat} (h : k < mark) :
    (m.truncate mark).bytes[k]? = m.bytes[k]? := by
  have hget := getElem?_extract_range m 0 mark k
  rw [Nat.zero_add, Nat.zero_add, if_pos h] at hget
  change (m.bytes.shrink mark)[k]? = _
  rw [Array.shrink_eq_take]
  exact hget

end Memory

section Integers

variable {k : Scalar}

theorem sizeOf_machineType (k : Scalar) : layout.sizeOf k.machineType = k.bytes := by
  cases k <;> rfl

theorem alignOf_machineType_le (d : DataLayout) (k : Scalar) : d.alignOf k.machineType ≤ memoryLimit := by
  cases k <;> exact Nat.le_of_ble_eq_true rfl

theorem modulus_bits_le (k : Scalar) : Word.modulus k.bits ≤ 256 ^ k.bytes := by
  cases k <;> decide

theorem zero_machineType (hk : k.isInteger = true) :
    Value.zero k.machineType = (IntValue.mk k 0).word := by
  cases k <;> first | rfl | simp [Scalar.isInteger, Scalar.isFloat] at hk

theorem Memory.load_machineType (hk : k.isInteger = true) (m : Memory) (a : Nat) :
    m.load a k.machineType = m.loadInt a k.bits k.bytes := by
  cases k <;> first | rfl | simp [Scalar.isInteger, Scalar.isFloat] at hk

theorem Memory.store_machineType (hk : k.isInteger = true) (a word bits : Nat) :
    Memory.store a (.int word bits) k.machineType = Memory.writeWord a k.bytes word := by
  rw [← sizeOf_machineType k]
  cases k <;> first | rfl | simp [Scalar.isInteger, Scalar.isFloat] at hk

end Integers

/-- The bytes at an address are a number, and the number is one of its kind. -/
structure Holds (m : Memory) (a : Nat) (x : IntValue) : Prop where
  wellFormed : x.WellFormed
  load : m.load a x.kind.machineType = .ok x.word

/-- Two ranges of addresses have no address in common. -/
def Apart (a count a' count' : Nat) : Prop := a + count ≤ a' ∨ a' + count' ≤ a

namespace Holds

variable {m m' : Memory} {a : Nat} {x : IntValue}

theorem access (h : Holds m a x) : memoryBase ≤ a ∧ a + x.kind.bytes ≤ m.size := by
  have hload := h.load
  rw [Memory.load_machineType h.wellFormed.1] at hload
  rw [← Memory.checkAccess_eq_ok]
  cases hc : m.checkAccess a x.kind.bytes with
  | ok u => rfl
  | error e =>
    simp [Memory.loadInt, Memory.readWord, Memory.readBytes, hc, bind, Except.bind] at hload

/-- A cell stays as it is while its bytes do. -/
theorem of_sameBytes (h : Holds m a x) (hsize : a + x.kind.bytes ≤ m'.size)
    (hbytes : Memory.SameBytes m m' a x.kind.bytes) : Holds m' a x := by
  refine ⟨h.wellFormed, ?_⟩
  have hc : m.checkAccess a x.kind.bytes = .ok () := Memory.checkAccess_eq_ok.mpr h.access
  have hc' : m'.checkAccess a x.kind.bytes = .ok () :=
    Memory.checkAccess_eq_ok.mpr ⟨h.access.1, hsize⟩
  have hload := h.load
  rw [Memory.load_machineType h.wellFormed.1, Memory.loadInt, Memory.readWord_eq hc] at hload
  rw [Memory.load_machineType h.wellFormed.1, Memory.loadInt, Memory.readWord_eq hc',
    Memory.extract_eq_of_sameBytes hbytes]
  exact hload

/-- A cell below the mark stays when the rest is given up. -/
theorem truncate (h : Holds m a x) {mark : Nat} (hmark : a + x.kind.bytes ≤ mark) :
    Holds (m.truncate mark) a x := by
  refine h.of_sameBytes ?_ fun i _ hi => m.getElem?_truncate (lt_of_lt_of_le hi hmark)
  rw [Memory.size_truncate]
  exact le_min hmark h.access.2

end Holds

/-- Storing a number at an accessible place makes a cell of it and keeps the cells apart from it. -/
theorem store_word {m : Memory} {a : Nat} {x : IntValue} (hx : x.WellFormed)
    (ha : memoryBase ≤ a ∧ a + x.kind.bytes ≤ m.size) :
    ∃ m', Memory.store a x.word x.kind.machineType m = .ok () m' ∧ m'.size = m.size ∧
      Holds m' a x ∧
      ∀ i, (i < a ∨ a + x.kind.bytes ≤ i) → m'.bytes[i]? = m.bytes[i]? := by
  -- the word is below two to the width, so that its low bytes are all of it
  have hlt : Word.ofInt x.kind.bits x.value < 256 ^ x.kind.bytes :=
    lt_of_lt_of_le (Word.ofInt_lt _ _) (modulus_bits_le _)
  obtain ⟨m', hwrite, hrewrites, -, hread⟩ := Memory.writeWord_spec ha hlt
  refine ⟨m', ?_, hrewrites.size, ⟨hx, ?_⟩, hrewrites.bytes⟩
  · rw [IntValue.word, Value.ofInt, Memory.store_machineType hx.1]
    exact hwrite
  · rw [Memory.load_machineType hx.1, Memory.loadInt, hread]
    simp [IntValue.word, Value.ofInt, bind, Except.bind, pure, Except.pure]

/-- A memory that was only added to. -/
structure Grows (m m' : Memory) : Prop where
  size : m.size ≤ m'.size
  bytes : ∀ i, i < m.size → m'.bytes[i]? = m.bytes[i]?

namespace Grows

theorem refl (m : Memory) : Grows m m := ⟨le_refl _, fun _ _ => rfl⟩

theorem trans {m₁ m₂ m₃ : Memory} (h : Grows m₁ m₂) (h' : Grows m₂ m₃) : Grows m₁ m₃ :=
  ⟨h.size.trans h'.size,
    fun i hi => (h'.bytes i (lt_of_lt_of_le hi h.size)).trans (h.bytes i hi)⟩

theorem holds {m m' : Memory} (h : Grows m m') {a : Nat} {x : IntValue} (hx : Holds m a x) :
    Holds m' a x :=
  hx.of_sameBytes (hx.access.2.trans h.size)
    fun i _ hi => h.bytes i (lt_of_lt_of_le hi hx.access.2)

end Grows

theorem le_alignUp {value alignment : Nat} (h : alignUp value alignment < maxU64) :
    value ≤ alignUp value alignment := by
  unfold alignUp alignUp? checkU64 at *
  split_ifs at * with h1 h2 h3
  · simp
  · simp
  · simp
  · simp at h

theorem alignUp_le (value alignment : Nat) :
    alignUp value (max alignment 1) + 1 ≤ value + max alignment 1 := by
  have hmod := Nat.mod_lt value (show 0 < max alignment 1 by omega)
  unfold alignUp alignUp? checkU64
  split_ifs <;> simp only [Option.getD_some, Option.getD_none] <;> omega

theorem Memory.size_extend {m : Memory} {stop : Nat} (h : stop ≤ memoryLimit) (hsize : m.size ≤ stop) :
    (m.extend stop h).size = stop := by
  rw [Memory.extend, Memory.size, Array.size_append, Array.size_replicate]
  exact Nat.add_sub_of_le hsize

/-- A range that ends within the limit is added. -/
theorem Memory.allocate_eq {count align : Nat} {m : Memory}
    (hstop : alignUp m.size (max align 1) + max count 1 ≤ memoryLimit) :
    allocate count align m = .ok (alignUp m.size (max align 1)) (m.extend _ hstop) := by
  have hlimit : memoryLimit < maxU64 := by decide
  simp only [allocate]
  rw [if_neg (by omega), dif_pos hstop]

theorem Memory.of_allocate {count align a : Nat} {m m' : Memory} (h : allocate count align m = .ok a m') :
    a = alignUp m.size (max align 1) ∧ ∃ hstop : a + max count 1 ≤ memoryLimit, m' = m.extend _ hstop := by
  simp only [allocate] at h
  split_ifs at h with hover hstop
  cases h
  exact ⟨rfl, hstop, rfl⟩

theorem Memory.grows_extend {m : Memory} {stop : Nat} (h : stop ≤ memoryLimit) (hsize : m.size ≤ stop) :
    Grows m (m.extend stop h) where
  size := hsize.trans_eq (size_extend h hsize).symm
  bytes _ hi := Array.getElem?_append_left hi

/-- Allocation fails for lack of memory or of addresses, or adds a range behind what was there. -/
theorem allocate_cases (count align : Nat) (m : Memory) :
    Memory.allocate count align m = .error .outOfMemory m ∨
      Memory.allocate count align m = .error .addressOverflow m ∧
        maxU64 < alignUp m.size (max align 1) + max count 1 ∨
      ∃ a m', Memory.allocate count align m = .ok a m' ∧ Grows m m' ∧ m.size ≤ a ∧
        a + count ≤ m'.size := by
  by_cases hover : maxU64 < alignUp m.size (max align 1) + max count 1
  · exact Or.inr (Or.inl ⟨if_pos hover, hover⟩)
  by_cases hstop : alignUp m.size (max align 1) + max count 1 ≤ memoryLimit
  · have hlimit : memoryLimit < maxU64 := by decide
    have ha : m.size ≤ alignUp m.size (max align 1) := le_alignUp (by omega)
    have hle := ha.trans (Nat.le_add_right _ (max count 1))
    have hsize := Memory.size_extend hstop hle
    exact Or.inr (Or.inr ⟨_, _, Memory.allocate_eq hstop, Memory.grows_extend hstop hle, ha, by omega⟩)
  · exact Or.inl ((if_neg hover).trans (dif_neg hstop))

end Machine
end UnitCompiler
