import Mathlib
import UnitCompiler.Proofs.Machine.Cells

/-!
# Values in memory

What is stored at an address as a value of a machine type is loaded from there again, whatever the type
is made of, and a store leaves all bytes outside the size of its type alone.  A float of single
precision is one that its 32 bits give back.
-/

namespace UnitCompiler

attribute [local instance (high)] instPowNat

/-- A word of a width. -/
def Machine.Value.IsWord (bits : Nat) (v : Machine.Value) : Prop :=
  ∃ word, v = .int word bits ∧ word < Word.modulus bits

namespace IrType

open Machine (Value)

mutual

/-- The values of a type.  Of the floats only those of single and double precision have values in
memory. -/
def Admits : IrType → Value → Prop
  | .i1 => fun v => v.IsWord 1
  | .i8 => fun v => v.IsWord 8
  | .i16 => fun v => v.IsWord 16
  | .i32 => fun v => v.IsWord 32
  | .i64 => fun v => v.IsWord 64
  | .i128 => fun v => v.IsWord 128
  | .f32 => fun v => ∃ x, v = .float x ∧ x.toSingle = x
  | .f64 => fun v => ∃ x, v = .float x
  | .f16 | .bf16 | .f128 => fun _ => False
  | .ptr _ | .function .. => fun v => ∃ address, v = .ptr address ∧ address ≤ maxU64
  | .array element length => fun v =>
    ∃ items, v = .aggregate items ∧ items.length = length ∧ ∀ item ∈ items, Admits element item
  | .vector element lanes => fun v =>
    ∃ items, v = .aggregate items ∧ items.length = lanes ∧ ∀ item ∈ items, Admits element item
  | .struct fields _ _ => fun v => ∃ items, v = .aggregate items ∧ AdmitAll fields items
  | .void => fun v => v = .void

def AdmitAll : List IrType → List Value → Prop
  | [], [] => True
  | type :: types, item :: items => Admits type item ∧ AdmitAll types items
  | _, _ => False

end

end IrType

/-! ### Single precision -/

namespace Binary

theorem encodeMagnitude_le (f : Format) (m : Nat) (q : Int) : encodeMagnitude f m q ≤ f.infinityBits := by
  unfold encodeMagnitude
  split
  · exact Nat.zero_le _
  · exact min_le_right _ _

theorem encode_single_lt (d : Datum) : encode single d < 2 ^ 32 := by
  have hinfinity : single.infinityBits = 255 * 2 ^ 23 := rfl
  have hsigned (negative : Bool) (magnitude : Nat) (h : magnitude < 2 ^ 31) :
      encode.signed single negative magnitude < 2 ^ 32 := by
    have hsign : single.signBit = 2 ^ 31 := rfl
    cases negative <;> simp only [encode.signed, hsign, if_true, Bool.false_eq_true, if_false] <;> omega
  cases d with
  | nan negative payload =>
    have hlt : ∀ n, n % single.hiddenBit < 2 ^ 23 := fun n => Nat.mod_lt n (by decide)
    exact hsigned _ _ (by have := hlt; rw [hinfinity]; exact Nat.add_lt_add_left (hlt _) _)
  | infinity negative => exact hsigned _ _ (by rw [hinfinity]; omega)
  | finite negative m q =>
    have hle := encodeMagnitude_le single m q
    exact hsigned _ _ (by omega)

end Binary

theorem Double.toSingleBits_lt (x : Double) : x.toSingleBits < 2 ^ 32 := by
  unfold Double.toSingleBits
  split <;> exact Binary.encode_single_lt _

/-! ### Placement -/

theorem alignUp_bounds {value : Nat} (h : value ≤ maxU64) (alignment : Nat) :
    value ≤ alignUp value alignment ∧ alignUp value alignment ≤ maxU64 := by
  unfold alignUp alignUp? checkU64
  split_ifs <;> simp only [Option.getD_some, Option.getD_none] <;> omega

namespace DataLayout

variable {d : DataLayout} {isPacked : Bool} {field : IrType} {fields rest : List IrType}
  {offset align : Nat}

/-- Where a field behind `offset` starts. -/
def fieldStart (d : DataLayout) (isPacked : Bool) (field : IrType) (offset : Nat) : Nat :=
  if isPacked then offset else alignUp offset (d.alignOf field)

theorem fieldStart_bounds (h : offset ≤ maxU64) :
    offset ≤ d.fieldStart isPacked field offset ∧ d.fieldStart isPacked field offset ≤ maxU64 := by
  unfold fieldStart
  split_ifs
  · exact ⟨le_refl _, h⟩
  · exact alignUp_bounds h _

theorem placeFields_cons : ∃ top, d.placeFields isPacked (field :: rest) offset align =
    (d.fieldStart isPacked field offset ::
        (d.placeFields isPacked rest
          (saturatingAdd (d.fieldStart isPacked field offset) (d.sizeOf field)) top).1,
      (d.placeFields isPacked rest
        (saturatingAdd (d.fieldStart isPacked field offset) (d.sizeOf field)) top).2) := by
  refine ⟨max align (if isPacked then 1 else d.alignOf field), ?_⟩
  cases isPacked <;> rfl

theorem placeFields_stop (fields : List IrType) (align : Nat) (h : offset ≤ maxU64) :
    offset ≤ (d.placeFields isPacked fields offset align).2.1 ∧
      (d.placeFields isPacked fields offset align).2.1 ≤ maxU64 := by
  induction fields generalizing offset align with
  | nil => exact ⟨le_refl _, h⟩
  | cons field rest ih =>
    obtain ⟨top, hplace⟩ := @placeFields_cons d isPacked field rest offset align
    have hstart : offset ≤ saturatingAdd (d.fieldStart isPacked field offset) (d.sizeOf field) :=
      le_min ((fieldStart_bounds h).1.trans (Nat.le_add_right _ _)) h
    obtain ⟨hle, hmax⟩ := ih top
      (min_le_right (d.fieldStart isPacked field offset + d.sizeOf field) maxU64)
    rw [hplace]
    exact ⟨hstart.trans hle, hmax⟩

/-- Fields that end within 64 bits lie one behind the other. -/
theorem placeFields_split (h : offset ≤ maxU64)
    (hstop : (d.placeFields isPacked (field :: rest) offset align).2.1 < maxU64) :
    ∃ start top, offset ≤ start ∧ start + d.sizeOf field ≤ maxU64 ∧
      d.placeFields isPacked (field :: rest) offset align =
        (start :: (d.placeFields isPacked rest (start + d.sizeOf field) top).1,
          (d.placeFields isPacked rest (start + d.sizeOf field) top).2) := by
  obtain ⟨top, hplace⟩ := @placeFields_cons d isPacked field rest offset align
  rw [hplace] at hstop
  have hnext : saturatingAdd (d.fieldStart isPacked field offset) (d.sizeOf field) < maxU64 :=
    (placeFields_stop rest top (min_le_right _ _)).1.trans_lt hstop
  have hexact : d.fieldStart isPacked field offset + d.sizeOf field ≤ maxU64 := by
    unfold saturatingAdd at hnext
    omega
  refine ⟨d.fieldStart isPacked field offset, top, (fieldStart_bounds h).1, hexact, ?_⟩
  rw [hplace, saturatingAdd, min_eq_left hexact]

/-- The fields of a struct end within its size. -/
theorem stop_le_sizeOf (d : DataLayout) (fields : List IrType) (isPacked : Bool) (name : Option String) :
    (d.placeFields isPacked fields 0 1).2.1 ≤ d.sizeOf (.struct fields isPacked name) := by
  rw [sizeOf]
  split_ifs
  · exact le_refl _
  · exact (alignUp_bounds (placeFields_stop fields 1 (Nat.zero_le _)).2 _).1

/-- An array whose size is within 64 bits has the size of its elements. -/
theorem saturatingMul_eq {a b : Nat} (h : saturatingMul a b < maxU64) : saturatingMul a b = a * b := by
  unfold saturatingMul at h ⊢
  omega

end DataLayout

namespace Machine
namespace Memory

open IrType (Admits AdmitAll)

/-! ### Loads -/

section Loads

variable {m m' : Memory} {a count : Nat}

theorem readWord_congr (h : SameBytes m m' a count) (hm : a + count ≤ m.size)
    (hm' : a + count ≤ m'.size) : m'.readWord a count = m.readWord a count := by
  have hcheck : m'.checkAccess a count = m.checkAccess a count := by
    unfold checkAccess
    rw [if_neg (Nat.not_lt.mpr hm), if_neg (Nat.not_lt.mpr hm')]
  simp only [readWord, readBytes, hcheck, extract_eq_of_sameBytes h]

theorem loadEach_congr {read read' : Nat → Except Fault Value} {count index : Nat}
    (h : ∀ i, index ≤ i → i < index + count → read' i = read i) (done : List Value) :
    loadEach read' count index done = loadEach read count index done := by
  induction count generalizing index done with
  | zero => rfl
  | succ count ih =>
    rw [loadEach, loadEach, h index (le_refl _) (by omega)]
    cases read index with
    | error fault => rfl
    | ok item => exact ih (fun i hi hlt => h i (by omega) (by omega)) _

theorem loadEach_of_reads {read : Nat → Except Fault Value} (items : List Value) {index : Nat}
    (h : ∀ j item, items[j]? = some item → read (index + j) = .ok item) (done : List Value) :
    loadEach read items.length index done = .ok (done.reverse ++ items) := by
  induction items generalizing index done with
  | nil => simp [loadEach]
  | cons item rest ih =>
    have hfirst : read index = .ok item := h 0 item rfl
    rw [List.length_cons, loadEach, hfirst]
    have hrest : ∀ j item', rest[j]? = some item' → read (index + 1 + j) = .ok item' := by
      intro j item' hitem'
      rw [Nat.add_assoc, Nat.add_comm 1 j]
      exact h (j + 1) item' hitem'
    simpa using ih hrest (item :: done)

/-- Elements of an array lie within it. -/
theorem element_le (size : Nat) {length i : Nat} (hi : i < length) : size * i + size ≤ size * length := by
  rw [← Nat.mul_succ]
  exact Nat.mul_le_mul_left _ hi

theorem loadElements_congr {type : IrType} {length : Nat}
    (hitem : ∀ a', SameBytes m m' a' (layout.sizeOf type) → a' + layout.sizeOf type ≤ m.size →
      a' + layout.sizeOf type ≤ m'.size → m'.load a' type = m.load a' type)
    (h : SameBytes m m' a (layout.sizeOf type * length))
    (hm : a + layout.sizeOf type * length ≤ m.size)
    (hm' : a + layout.sizeOf type * length ≤ m'.size) :
    loadEach (fun i => m'.load (a + layout.sizeOf type * i) type) length 0 [] =
      loadEach (fun i => m.load (a + layout.sizeOf type * i) type) length 0 [] := by
  refine loadEach_congr (fun i _ hi => ?_) []
  have hlt : i < length := by omega
  have hle := element_le (layout.sizeOf type) hlt
  exact hitem _ (fun j hj hlt => h j (by omega) (by omega)) (by omega) (by omega)

mutual

/-- What is loaded depends on the bytes of the type alone. -/
theorem load_congr (type : IrType) {a : Nat} (hs : layout.sizeOf type < maxU64)
    (h : SameBytes m m' a (layout.sizeOf type)) (hm : a + layout.sizeOf type ≤ m.size)
    (hm' : a + layout.sizeOf type ≤ m'.size) : m'.load a type = m.load a type := by
  match type with
  | .void => rfl
  | .f16 | .bf16 | .f128 => rfl
  | .i1 | .i8 | .i16 | .i32 | .i64 | .i128 =>
    rw [DataLayout.sizeOf] at h hm hm'
    simp only [load, loadInt, readWord_congr h hm hm']
  | .f32 | .f64 | .ptr _ | .function _ _ _ =>
    rw [DataLayout.sizeOf] at h hm hm'
    simp only [load, readWord_congr h hm hm']
  | .array element length | .vector element length =>
    have hsize := DataLayout.saturatingMul_eq hs
    rw [DataLayout.sizeOf, hsize] at h hm hm'
    simp only [load]
    rcases Nat.eq_zero_or_pos length with rfl | hpos
    · rfl
    · have hle := element_le (layout.sizeOf element) hpos
      have hlt : layout.sizeOf element * length < maxU64 := by
        rw [← hsize]
        exact hs
      rw [loadElements_congr (fun a' h' hm₁ hm₂ => load_congr element (by omega) h' hm₁ hm₂) h hm hm']
  | .struct fields isPacked name =>
    have hstop := DataLayout.stop_le_sizeOf layout fields isPacked name
    simp only [load, DataLayout.fieldOffsets]
    rw [loadFields_congr fields (Nat.zero_le _) (hstop.trans_lt hs) (fun i hi hlt =>
      h i hi (by omega)) (by omega) (by omega)]

theorem loadFields_congr (fields : List IrType) {a offset align : Nat} {isPacked : Bool}
    (hoffset : offset ≤ maxU64)
    (hstop : (layout.placeFields isPacked fields offset align).2.1 < maxU64)
    (h : ∀ i, a + offset ≤ i → i < a + (layout.placeFields isPacked fields offset align).2.1 →
      m'.bytes[i]? = m.bytes[i]?)
    (hm : a + (layout.placeFields isPacked fields offset align).2.1 ≤ m.size)
    (hm' : a + (layout.placeFields isPacked fields offset align).2.1 ≤ m'.size) :
    m'.loadFields a (layout.placeFields isPacked fields offset align).1 fields =
      m.loadFields a (layout.placeFields isPacked fields offset align).1 fields := by
  match fields with
  | [] => rfl
  | field :: rest =>
    obtain ⟨start, top, hstart, hend, hplace⟩ := DataLayout.placeFields_split hoffset hstop
    rw [hplace] at h hm hm' hstop ⊢
    have hle := (@DataLayout.placeFields_stop layout isPacked _ rest top hend).1
    simp only at h hm hm' hstop ⊢
    have hfield : m'.load (a + start) field = m.load (a + start) field :=
      load_congr field (by omega) (fun i hi hlt => h i (by omega) (by omega)) (by omega) (by omega)
    have hrest : m'.loadFields a (layout.placeFields isPacked rest (start + layout.sizeOf field) top).1
        rest = m.loadFields a (layout.placeFields isPacked rest (start + layout.sizeOf field) top).1
        rest :=
      loadFields_congr rest hend hstop (fun i hi hlt => h i (by omega) hlt) hm hm'
    rw [loadFields, loadFields, hfield, hrest]

end

end Loads

/-! ### Stores -/

namespace Rewrites

variable {m m' m'' : Memory} {a count a' count' : Nat}

theorem refl (m : Memory) (a count : Nat) : Rewrites m m a count := ⟨rfl, fun _ _ => rfl⟩

theorem trans (h : Rewrites m m' a count) (h' : Rewrites m' m'' a count) : Rewrites m m'' a count :=
  ⟨h'.size.trans h.size, fun i hi => (h'.bytes i hi).trans (h.bytes i hi)⟩

theorem mono (h : Rewrites m m' a count) (ha : a' ≤ a) (hc : a + count ≤ a' + count') :
    Rewrites m m' a' count' :=
  ⟨h.size, fun i hi => h.bytes i (by omega)⟩

/-- A type that lies apart is loaded as before. -/
theorem load (h : Rewrites m m' a count) {type : IrType} {a' : Nat} (hs : layout.sizeOf type < maxU64)
    (hapart : Apart a count a' (layout.sizeOf type)) (hm : a' + layout.sizeOf type ≤ m.size) :
    m'.load a' type = m.load a' type := by
  refine load_congr type hs (fun i hi hlt => h.bytes i ?_) hm (by rw [h.size]; exact hm)
  unfold Apart at hapart
  omega

end Rewrites

/-- What lies in the memory that was there before is loaded as before. -/
theorem load_of_grows {m m' : Memory} (h : Grows m m') {type : IrType} {a : Nat}
    (hs : layout.sizeOf type < maxU64) (ha : a + layout.sizeOf type ≤ m.size) :
    m'.load a type = m.load a type :=
  load_congr type hs (fun i _ hi => h.bytes i (hi.trans_le ha)) ha (ha.trans h.size)

/-- The store of a value of a type succeeds and is read back. -/
def Keeps (m : Memory) (a : Nat) (v : Value) (type : IrType) : Prop :=
  ∃ m', store a v type m = .ok () m' ∧ Rewrites m m' a (layout.sizeOf type) ∧
    m'.load a type = .ok v

section Stores

variable {m : Memory} {a : Nat}

theorem bind_store {x : EStateM Fault Memory Unit} {f : Unit → EStateM Fault Memory Unit} {m' : Memory}
    (h : x m = .ok () m') : (x >>= f) m = f () m' := by
  change EStateM.bind x f m = _
  rw [EStateM.bind, h]

theorem keeps_word {type : IrType} {bits bytes : Nat} {v : Value} (hv : v.IsWord bits)
    (hsize : layout.sizeOf type = bytes) (hbits : Word.modulus bits ≤ 256 ^ bytes)
    (hstore : store a v type = storeInt a v type)
    (hload : ∀ m : Memory, m.load a type = m.loadInt a bits bytes)
    (ha : memoryBase ≤ a ∧ a + layout.sizeOf type ≤ m.size) : Keeps m a v type := by
  obtain ⟨word, rfl, hword⟩ := hv
  rw [hsize] at ha
  obtain ⟨m', hwrite, hrewrites, -, hread⟩ := writeWord_spec ha (hword.trans_le hbits)
  refine ⟨m', ?_, by rw [hsize]; exact hrewrites, ?_⟩
  · rw [hstore, storeInt, hsize]
    exact hwrite
  · rw [hload, loadInt, hread]
    change Except.ok (Value.int (Word.mask bits word) bits) = _
    rw [Word.mask_of_lt hword]

theorem keeps_address {type : IrType} {address : Nat} (haddress : address ≤ maxU64)
    (hsize : layout.sizeOf type = 8) (hstore : store a (.ptr address) type = writeWord a 8 address)
    (hload : ∀ m : Memory, m.load a type = (m.readWord a 8).map .ptr)
    (ha : memoryBase ≤ a ∧ a + layout.sizeOf type ≤ m.size) : Keeps m a (.ptr address) type := by
  have hlt : address < 256 ^ 8 := by
    unfold maxU64 at haddress
    omega
  rw [hsize] at ha
  obtain ⟨m', hwrite, hrewrites, -, hread⟩ := writeWord_spec ha hlt
  refine ⟨m', by rw [hstore]; exact hwrite, by rw [hsize]; exact hrewrites, ?_⟩
  rw [hload, hread]
  rfl

/-- Items of one type, one behind the other. -/
theorem keeps_items {type : IrType} (hs : layout.sizeOf type < maxU64) (items : List Value)
    (hitem : ∀ item ∈ items, ∀ a' m', memoryBase ≤ a' → a' + layout.sizeOf type ≤ m'.size →
      Keeps m' a' item type) (m : Memory) (ha : memoryBase ≤ a) (k : Nat)
    (hm : a + layout.sizeOf type * (k + items.length) ≤ m.size) :
    ∃ m', ((items.zipIdx k).forM fun (item, i) => store (a + layout.sizeOf type * i) item type) m =
        .ok () m' ∧
      Rewrites m m' (a + layout.sizeOf type * k) (layout.sizeOf type * items.length) ∧
      ∀ j item, items[j]? = some item →
        m'.load (a + layout.sizeOf type * (k + j)) type = .ok item := by
  induction items generalizing m k with
  | nil => exact ⟨m, rfl, .refl _ _ _, by simp⟩
  | cons item rest ih =>
    have hlen : layout.sizeOf type * (k + (item :: rest).length) =
        layout.sizeOf type * k + layout.sizeOf type + layout.sizeOf type * rest.length := by
      rw [List.length_cons]
      ring
    rw [hlen] at hm
    obtain ⟨m₁, hstore, hfirst, hload⟩ := hitem item List.mem_cons_self (a + layout.sizeOf type * k) m
      (by omega) (by omega)
    have hnext : layout.sizeOf type * (k + 1) = layout.sizeOf type * k + layout.sizeOf type := by ring
    have hsum : layout.sizeOf type * (k + 1 + rest.length) =
        layout.sizeOf type * k + layout.sizeOf type + layout.sizeOf type * rest.length := by ring
    obtain ⟨m₂, hrun, hrest, hloads⟩ := ih
      (fun item' hitem' => hitem item' (List.mem_cons_of_mem _ hitem')) m₁ (k + 1) (by rw [hsum, hfirst.size]; omega)
    rw [hnext] at hrest
    refine ⟨m₂, ?_, ?_, fun j item' hitem' => ?_⟩
    · rw [List.zipIdx_cons]
      exact (bind_store hstore).trans hrun
    · rw [List.length_cons, Nat.mul_succ]
      exact (hfirst.mono (le_refl _) (by omega)).trans (hrest.mono (by omega) (by omega))
    · cases j with
      | zero =>
        cases hitem'
        rw [Nat.add_zero, hrest.load hs (Or.inr (by omega)) (by rw [hfirst.size]; omega)]
        exact hload
      | succ j =>
        rw [show k + (j + 1) = k + 1 + j by omega]
        exact hloads j item' hitem'

mutual

/-- A value of a type is stored at any place with room for the type, and loaded from there again. -/
theorem keeps (type : IrType) {v : Value} (hv : type.Admits v) (m : Memory) {a : Nat}
    (hs : layout.sizeOf type < maxU64) (ha : memoryBase ≤ a ∧ a + layout.sizeOf type ≤ m.size) :
    Keeps m a v type := by
  match type with
  | .void =>
    cases hv
    exact ⟨m, rfl, .refl _ _ _, rfl⟩
  | .f16 | .bf16 | .f128 => exact hv.elim
  | .i1 | .i8 | .i16 | .i32 | .i64 | .i128 =>
    exact keeps_word hv rfl (by decide) rfl (fun _ => rfl) ha
  | .f32 =>
    obtain ⟨x, rfl, hx⟩ := hv
    have ha : memoryBase ≤ a ∧ a + 4 ≤ m.size := ha
    have hlt : x.toSingleBits < 256 ^ 4 := x.toSingleBits_lt
    obtain ⟨m', hwrite, hrewrites, -, hread⟩ := writeWord_spec ha hlt
    refine ⟨m', hwrite, hrewrites, ?_⟩
    rw [load, hread]
    exact congrArg (Except.ok ∘ Value.float) hx
  | .f64 =>
    obtain ⟨x, rfl⟩ := hv
    have ha : memoryBase ≤ a ∧ a + 8 ≤ m.size := ha
    have hlt : x.bits.toNat < 256 ^ 8 := x.bits.toNat_lt
    obtain ⟨m', hwrite, hrewrites, -, hread⟩ := writeWord_spec ha hlt
    refine ⟨m', hwrite, hrewrites, ?_⟩
    rw [load, hread]
    have hbits : Double.ofNat x.bits.toNat = x := by
      simp [Double.ofNat]
    exact congrArg (Except.ok ∘ Value.float) hbits
  | .ptr target =>
    obtain ⟨address, rfl, haddress⟩ := hv
    exact keeps_address haddress rfl rfl (fun _ => rfl) ha
  | .function ret params isVariadic =>
    obtain ⟨address, rfl, haddress⟩ := hv
    exact keeps_address haddress rfl rfl (fun _ => rfl) ha
  | .array element length | .vector element length =>
    obtain ⟨items, rfl, rfl, hitems⟩ := hv
    have hsize := DataLayout.saturatingMul_eq hs
    simp only [Keeps, DataLayout.sizeOf, hsize] at ha ⊢
    cases items with
    | nil => exact ⟨m, rfl, .refl _ _ _, rfl⟩
    | cons item rest =>
      have hlt : layout.sizeOf element * (item :: rest).length < maxU64 := by
        rw [← hsize]
        exact hs
      have hs' : layout.sizeOf element < maxU64 :=
        (Nat.le_mul_of_pos_right _ (Nat.zero_lt_succ rest.length)).trans_lt hlt
      obtain ⟨m', hrun, hrewrites, hloads⟩ := keeps_items hs' (item :: rest)
        (fun item' hitem' a' m' ha' hm' => keeps element (hitems item' hitem') m' hs' ⟨ha', hm'⟩)
        m ha.1 0 (by rw [Nat.zero_add]; exact ha.2)
      refine ⟨m', hrun, hrewrites, ?_⟩
      rw [load, loadEach_of_reads (item :: rest) hloads []]
      rfl
  | .struct fields isPacked name =>
    obtain ⟨items, rfl, hitems⟩ := hv
    have hstop := DataLayout.stop_le_sizeOf layout fields isPacked name
    obtain ⟨m', hrun, hrewrites, hload⟩ := keeps_fields fields hitems m (Nat.zero_le _)
      (hstop.trans_lt hs) ha.1 (by omega)
    refine ⟨m', hrun, hrewrites.mono (by omega) (by omega), ?_⟩
    rw [load, DataLayout.fieldOffsets, hload]
    rfl

theorem keeps_fields (fields : List IrType) {items : List Value} (hv : AdmitAll fields items)
    (m : Memory) {a offset align : Nat} {isPacked : Bool} (hoffset : offset ≤ maxU64)
    (hstop : (layout.placeFields isPacked fields offset align).2.1 < maxU64) (ha : memoryBase ≤ a)
    (hm : a + (layout.placeFields isPacked fields offset align).2.1 ≤ m.size) :
    ∃ m', storeFields a items (layout.placeFields isPacked fields offset align).1 fields m = .ok () m' ∧
      Rewrites m m' (a + offset) ((layout.placeFields isPacked fields offset align).2.1 - offset) ∧
      m'.loadFields a (layout.placeFields isPacked fields offset align).1 fields = .ok items := by
  match fields, items with
  | [], [] => exact ⟨m, rfl, .refl _ _ _, rfl⟩
  | [], _ :: _ => exact hv.elim
  | _ :: _, [] => exact hv.elim
  | field :: rest, item :: items =>
    obtain ⟨start, top, hstart, hend, hplace⟩ := DataLayout.placeFields_split hoffset hstop
    rw [hplace] at hm hstop ⊢
    have hle := (@DataLayout.placeFields_stop layout isPacked _ rest top hend).1
    simp only at hm hstop ⊢
    obtain ⟨m₁, hstore, hfirst, hload⟩ := keeps field hv.1 m (by omega)
      (show memoryBase ≤ a + start ∧ _ from ⟨by omega, by omega⟩)
    obtain ⟨m₂, hrun, hrest, hloads⟩ := keeps_fields rest hv.2 m₁ hend hstop ha
      (by rw [hfirst.size]; omega)
    refine ⟨m₂, ?_, ?_, ?_⟩
    · rw [storeFields]
      exact (bind_store hstore).trans hrun
    · exact (hfirst.mono (by omega) (by omega)).trans (hrest.mono (by omega) (by omega))
    · -- the fields behind lie apart from the first
      have hfield : m₂.load (a + start) field = m₁.load (a + start) field :=
        hrest.load (by omega) (Or.inr (by omega)) (by rw [hfirst.size]; omega)
      rw [loadFields, hfield, hload, hloads]
      rfl

end

end Stores

end Memory

/-! ### Zeros -/

theorem toSingle_zero : Double.zero.toSingle = Double.zero := by decide

mutual

/-- A type that has a value has the zero. -/
theorem admits_zero (type : IrType) {v : Value} (hv : type.Admits v) : type.Admits (.zero type) := by
  match type with
  | .void => rfl
  | .f16 | .bf16 | .f128 => exact hv.elim
  | .i1 | .i8 | .i16 | .i32 | .i64 | .i128 => exact ⟨0, rfl, Word.modulus_pos _⟩
  | .f32 => exact ⟨Double.zero, rfl, toSingle_zero⟩
  | .f64 => exact ⟨Double.zero, rfl⟩
  | .ptr _ | .function _ _ _ => exact ⟨0, rfl, Nat.zero_le _⟩
  | .array element length | .vector element length =>
    obtain ⟨items, rfl, rfl, hitems⟩ := hv
    refine ⟨List.replicate items.length (.zero element), rfl, List.length_replicate, ?_⟩
    intro item hitem
    obtain ⟨hne, rfl⟩ := List.mem_replicate.mp hitem
    obtain ⟨head, hhead⟩ := List.exists_mem_of_ne_nil items (by simpa using hne)
    exact admits_zero element (hitems head hhead)
  | .struct fields isPacked name =>
    obtain ⟨items, rfl, hitems⟩ := hv
    exact ⟨Value.zeros fields, rfl, admitAll_zeros fields hitems⟩

theorem admitAll_zeros (fields : List IrType) {items : List Value}
    (hv : IrType.AdmitAll fields items) : IrType.AdmitAll fields (Value.zeros fields) := by
  match fields, items with
  | [], _ => trivial
  | _ :: _, [] => exact hv.elim
  | field :: rest, item :: items => exact ⟨admits_zero field hv.1, admitAll_zeros rest hv.2⟩

end
end Machine
end UnitCompiler
