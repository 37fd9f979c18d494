import Mathlib
import UnitCompiler.Proofs.Machine.Storage

/-!
# The pieces of values in memory

An array, a vector or a struct in memory is made of pieces, one behind the other and all within its
size.  Loading and storing it is loading and storing its pieces, so that a store changes no byte but
those of scalars: the bytes around the value and the padding inside it stay as they are.
-/

namespace UnitCompiler

attribute [local instance (high)] instPowNat

namespace IrType

open Machine (Value layout)

/-- Whether values of the type are made of items. -/
def isAggregate : IrType → Bool
  | .array .. | .vector .. | .struct .. => true
  | _ => false

/-- The fields or elements of a type, with the offsets at which they lie. -/
def pieces : IrType → List (Nat × IrType)
  | .array element length | .vector element length =>
    (List.range length).map fun i => (layout.sizeOf element * i, element)
  | .struct fields isPacked _ => (layout.fieldOffsets fields isPacked).zip fields
  | _ => []

/-- The items of a value that a store writes at a type, with the offsets and the types that they are
stored at. -/
def parts : IrType → Value → List ((Nat × IrType) × Value)
  | .array element _, .aggregate items | .vector element _, .aggregate items =>
    items.zipIdx.map fun (item, i) => ((layout.sizeOf element * i, element), item)
  | .struct fields isPacked _, .aggregate items =>
    ((layout.fieldOffsets fields isPacked).zip fields).zip items
  | _, _ => []

/-- The bytes of a type that belong to a scalar in it; the others are padding. -/
inductive Occupies : IrType → Nat → Prop
  | scalar {type : IrType} {k : Nat} :
    type.isAggregate = false → k < layout.sizeOf type → Occupies type k
  | piece {type : IrType} {piece : Nat × IrType} {k : Nat} :
    piece ∈ type.pieces → Occupies piece.2 k → Occupies type (piece.1 + k)

theorem sizeOf_lt_of_mem_pieces {type : IrType} {piece : Nat × IrType} (h : piece ∈ type.pieces) :
    SizeOf.sizeOf piece.2 < SizeOf.sizeOf type := by
  cases type with
  | array element length | vector element length =>
    obtain ⟨i, -, rfl⟩ := List.mem_map.mp h
    simp only [array.sizeOf_spec, vector.sizeOf_spec]
    omega
  | struct fields isPacked name =>
    have hfield := List.sizeOf_lt_of_mem (List.of_mem_zip h).2
    simp only [struct.sizeOf_spec]
    omega
  | _ => simp [pieces] at h

/-- What every type takes over from its pieces holds of all types. -/
theorem pieces_induction {P : IrType → Prop}
    (step : ∀ type : IrType, (∀ piece ∈ type.pieces, P piece.2) → P type) (type : IrType) : P type :=
  step type fun piece hpiece =>
    have := sizeOf_lt_of_mem_pieces hpiece
    pieces_induction step piece.2
termination_by SizeOf.sizeOf type

/-- With as many items as there are pieces, every piece takes one. -/
theorem parts_eq_zip {type : IrType} (h : type.isAggregate = true) {items : List Value}
    (hlen : type.pieces.length = items.length) :
    type.parts (.aggregate items) = type.pieces.zip items := by
  cases type with
  | array element length | vector element length =>
    have hlen : length = items.length := by simpa [pieces] using hlen
    subst hlen
    have hzip : items.zipIdx = ((List.range items.length).zip items).map Prod.swap := by
      rw [List.zipIdx_eq_zip_range', List.range_eq_range', List.zip_swap]
    rw [parts, hzip, pieces, List.zip_map_left, List.map_map]
    rfl
  | struct fields isPacked name => rfl
  | _ => simp [isAggregate] at h

/-! ### Where pieces lie -/

/-- Fields placed from an offset on lie behind it, before the end, and one behind the other. -/
theorem placeFields_apart (fields : List IrType) {isPacked : Bool} {offset align : Nat}
    (hoffset : offset ≤ maxU64)
    (hstop : (layout.placeFields isPacked fields offset align).2.1 < maxU64) :
    (((layout.placeFields isPacked fields offset align).1.zip fields).Pairwise fun p q =>
        p.1 + layout.sizeOf p.2 ≤ q.1) ∧
      ∀ p ∈ (layout.placeFields isPacked fields offset align).1.zip fields,
        offset ≤ p.1 ∧
          p.1 + layout.sizeOf p.2 ≤ (layout.placeFields isPacked fields offset align).2.1 := by
  induction fields generalizing offset align with
  | nil => simp
  | cons field rest ih =>
    obtain ⟨start, top, hstart, hend, hplace⟩ := DataLayout.placeFields_split hoffset hstop
    rw [hplace] at hstop ⊢
    obtain ⟨hpairs, hbounds⟩ := ih hend hstop
    have hle := (@DataLayout.placeFields_stop layout isPacked _ rest top hend).1
    rw [List.zip_cons_cons]
    refine ⟨List.pairwise_cons.mpr ⟨fun p hp => (hbounds p hp).1, hpairs⟩, ?_⟩
    intro p hp
    rcases List.mem_cons.mp hp with rfl | hp
    · exact ⟨hstart, hle⟩
    · exact ⟨by have := (hbounds p hp).1; omega, (hbounds p hp).2⟩

theorem length_placeFields (fields : List IrType) (isPacked : Bool) (offset align : Nat) :
    (layout.placeFields isPacked fields offset align).1.length = fields.length := by
  induction fields generalizing offset align with
  | nil => rfl
  | cons field rest ih =>
    obtain ⟨top, hplace⟩ := @DataLayout.placeFields_cons layout isPacked field rest offset align
    rw [hplace, List.length_cons, List.length_cons, ih]

section Layout

variable {type : IrType} (hs : layout.sizeOf type < maxU64)

include hs

theorem pieces_pairwise :
    type.pieces.Pairwise fun p q => p.1 + layout.sizeOf p.2 ≤ q.1 := by
  cases type with
  | array element length | vector element length =>
    refine List.pairwise_map.mpr (List.pairwise_lt_range.imp fun {i j} hij => ?_)
    calc layout.sizeOf element * i + layout.sizeOf element
        = layout.sizeOf element * (i + 1) := (Nat.mul_succ _ _).symm
      _ ≤ layout.sizeOf element * j := Nat.mul_le_mul_left _ hij
  | struct fields isPacked name =>
    have hstop := DataLayout.stop_le_sizeOf layout fields isPacked name
    exact (placeFields_apart fields (Nat.zero_le _) (hstop.trans_lt hs)).1
  | _ => exact List.Pairwise.nil

theorem piece_le {piece : Nat × IrType} (h : piece ∈ type.pieces) :
    piece.1 + layout.sizeOf piece.2 ≤ layout.sizeOf type := by
  cases type with
  | array element length | vector element length =>
    obtain ⟨i, hi, rfl⟩ := List.mem_map.mp h
    have hsize := DataLayout.saturatingMul_eq hs
    rw [DataLayout.sizeOf, hsize]
    exact Machine.Memory.element_le _ (List.mem_range.mp hi)
  | struct fields isPacked name =>
    have hstop := DataLayout.stop_le_sizeOf layout fields isPacked name
    have hbound := (placeFields_apart fields (Nat.zero_le _) (hstop.trans_lt hs)).2 piece h
    exact hbound.2.trans hstop
  | _ => simp [pieces] at h

theorem piece_lt {piece : Nat × IrType} (h : piece ∈ type.pieces) :
    layout.sizeOf piece.2 < maxU64 :=
  (Nat.le_add_left _ _).trans_lt ((piece_le hs h).trans_lt hs)

/-- Two different pieces have no byte in common. -/
theorem pieces_apart {i j : Nat} {p q : Nat × IrType} (hp : type.pieces[i]? = some p)
    (hq : type.pieces[j]? = some q) (hij : i ≠ j) (a : Nat) :
    Machine.Apart (a + p.1) (layout.sizeOf p.2) (a + q.1) (layout.sizeOf q.2) := by
  obtain ⟨hi, rfl⟩ := List.getElem?_eq_some_iff.mp hp
  obtain ⟨hj, rfl⟩ := List.getElem?_eq_some_iff.mp hq
  have hpairs := List.pairwise_iff_getElem.mp (pieces_pairwise hs)
  rcases Nat.lt_or_gt_of_ne hij with hlt | hgt
  · have := hpairs i j hi hj hlt
    exact Or.inl (by omega)
  · have := hpairs j i hj hi hgt
    exact Or.inr (by omega)

end Layout

/-- The values of an aggregate type are the lists of values of its pieces. -/
theorem admits_iff_pieces {type : IrType} (h : type.isAggregate = true) {v : Value} :
    type.Admits v ↔ ∃ items, v = .aggregate items ∧
      List.Forall₂ (fun piece item => piece.2.Admits item) type.pieces items := by
  have hfields (fields : List IrType) (items : List Value) : ∀ offsets : List Nat,
      offsets.length = fields.length → (AdmitAll fields items ↔
        List.Forall₂ (fun piece item => piece.2.Admits item) (offsets.zip fields) items) := by
    induction fields generalizing items with
    | nil => intro offsets _; cases items <;> simp [AdmitAll]
    | cons field rest ih =>
      intro offsets hlen
      cases offsets with
      | nil => simp at hlen
      | cons offset offsets =>
        cases items with
        | nil => simp [AdmitAll]
        | cons item items =>
          rw [List.zip_cons_cons, List.forall₂_cons, AdmitAll, ih items offsets (by simpa using hlen)]
  have helements (element : IrType) (length : Nat) (items : List Value) :
      (items.length = length ∧ ∀ item ∈ items, element.Admits item) ↔
        List.Forall₂ (fun piece item => piece.2.Admits item)
          ((List.range length).map fun i => (layout.sizeOf element * i, element)) items := by
    rw [List.forall₂_map_left_iff, List.forall₂_iff_get]
    simp only [List.length_range, List.get_eq_getElem]
    constructor
    · rintro ⟨rfl, hitems⟩
      exact ⟨rfl, fun i _ hi => hitems _ (List.getElem_mem hi)⟩
    · rintro ⟨rfl, hitems⟩
      refine ⟨rfl, fun item hitem => ?_⟩
      obtain ⟨i, hi, rfl⟩ := List.getElem_of_mem hitem
      exact hitems i hi hi
  cases type with
  | array element length | vector element length =>
    simp only [Admits, pieces, ← helements]
  | struct fields isPacked name =>
    simp only [Admits, pieces]
    refine exists_congr fun items => and_congr_right fun _ => hfields fields items _ ?_
    exact length_placeFields fields isPacked 0 1
  | _ => simp [isAggregate] at h

end IrType

namespace Machine
namespace Memory

open IrType (Admits)

/-! ### Pieces in memory -/

/-- A traversal succeeds with the results of the items. -/
theorem mapM_eq_ok_iff {α β : Type} {f : α → Except Fault β} {l : List α} {bs : List β} :
    l.mapM f = .ok bs ↔ List.Forall₂ (fun a b => f a = .ok b) l bs := by
  induction l generalizing bs with
  | nil => cases bs <;> simp [pure, Except.pure]
  | cons a l ih =>
    rw [List.mapM_cons]
    cases hfirst : f a with
    | error fault => cases bs <;> simp [bind, Except.bind, hfirst]
    | ok b =>
      cases hrest : l.mapM f with
      | error fault => cases bs <;> simp [bind, Except.bind, hfirst, ← ih, hrest]
      | ok rest => cases bs <;> simp [bind, Except.bind, pure, Except.pure, hfirst, ← ih, hrest]

theorem loadFields_eq_mapM (m : Memory) (a : Nat) (offsets : List Nat) (fields : List IrType) :
    m.loadFields a offsets fields =
      (offsets.zip fields).mapM fun piece => m.load (a + piece.1) piece.2 := by
  induction fields generalizing offsets with
  | nil => simp [loadFields]
  | cons field rest ih =>
    cases offsets with
    | nil => simp [loadFields]
    | cons offset offsets => rw [loadFields, List.zip_cons_cons, List.mapM_cons, ih]

/-- An aggregate is loaded piece by piece. -/
theorem load_eq_ok_iff {type : IrType} (h : type.isAggregate = true) {m : Memory} {a : Nat} {v : Value} :
    m.load a type = .ok v ↔ ∃ items, v = .aggregate items ∧
      List.Forall₂ (fun piece item => m.load (a + piece.1) piece.2 = .ok item) type.pieces items := by
  have hload : m.load a type =
      (type.pieces.mapM fun piece => m.load (a + piece.1) piece.2).map .aggregate := by
    cases type with
    | array element length | vector element length =>
      have hread : (fun piece : Nat × IrType => m.load (a + piece.1) piece.2) ∘
          (fun i => (layout.sizeOf element * i, element)) =
            fun i => m.load (a + layout.sizeOf element * i) element := rfl
      rw [load, loadEach_eq, IrType.pieces, List.mapM_map, List.range_eq_range', hread]
      cases (List.range' 0 length).mapM fun i => m.load (a + layout.sizeOf element * i) element <;> rfl
    | struct fields isPacked name =>
      rw [load, loadFields_eq_mapM, IrType.pieces]
      cases ((layout.fieldOffsets fields isPacked).zip fields).mapM
        fun piece => m.load (a + piece.1) piece.2 <;> rfl
    | _ => simp [IrType.isAggregate] at h
  simp only [hload, ← mapM_eq_ok_iff]
  cases type.pieces.mapM fun piece => m.load (a + piece.1) piece.2 with
  | error fault => simp [Except.map]
  | ok items =>
    simp only [Except.map, Except.ok.injEq, exists_eq_right']
    exact eq_comm

theorem storeFields_eq_forM (a : Nat) (items : List Value) (offsets : List Nat) (fields : List IrType) :
    storeFields a items offsets fields =
      ((offsets.zip fields).zip items).forM fun (piece, item) => store (a + piece.1) item piece.2 := by
  induction fields generalizing items offsets with
  | nil => simp [storeFields]
  | cons field rest ih =>
    cases items with
    | nil => simp [storeFields]
    | cons item items =>
      cases offsets with
      | nil => simp [storeFields]
      | cons offset offsets =>
        rw [storeFields, ih]
        rfl

/-- An aggregate is stored part by part. -/
theorem store_eq_forM {type : IrType} (h : type.isAggregate = true) (items : List Value) (a : Nat) :
    store a (.aggregate items) type = (type.parts (.aggregate items)).forM
      fun (piece, item) => store (a + piece.1) item piece.2 := by
  cases type with
  | array element length | vector element length =>
    rw [store, IrType.parts, List.forM_eq_forM, List.forM_eq_forM, List.forM_map]
  | struct fields isPacked name => exact storeFields_eq_forM a items _ fields
  | _ => simp [IrType.isAggregate] at h

/-! ### What a store leaves alone -/

/-- A store that changes at most the bytes that the type occupies. -/
def Fills (m : Memory) (a : Nat) (v : Value) (type : IrType) : Prop :=
  ∃ m', store a v type m = .ok () m' ∧ m'.size = m.size ∧
    ∀ i, (∀ k, type.Occupies k → i ≠ a + k) → m'.bytes[i]? = m.bytes[i]?

theorem fills_pieces {a : Nat} {pieces : List (Nat × IrType)} {items : List Value}
    (hitems : List.Forall₂ (fun piece item => ∀ m : Memory,
      a + piece.1 + layout.sizeOf piece.2 ≤ m.size → Fills m (a + piece.1) item piece.2) pieces items)
    (m : Memory) (hm : ∀ piece ∈ pieces, a + piece.1 + layout.sizeOf piece.2 ≤ m.size) :
    ∃ m', ((pieces.zip items).forM fun (piece, item) => store (a + piece.1) item piece.2) m = .ok () m' ∧
      m'.size = m.size ∧
      ∀ i, (∀ piece ∈ pieces, ∀ k, piece.2.Occupies k → i ≠ a + (piece.1 + k)) →
        m'.bytes[i]? = m.bytes[i]? := by
  induction hitems generalizing m with
  | nil => exact ⟨m, rfl, rfl, fun _ _ => rfl⟩
  | @cons piece item pieces items hfirst _ ih =>
    obtain ⟨m₁, hstore, hsize, hbytes⟩ := hfirst m (hm piece List.mem_cons_self)
    obtain ⟨m₂, hrun, hsize', hbytes'⟩ := ih m₁ fun piece' hpiece' => by
      rw [hsize]
      exact hm piece' (List.mem_cons_of_mem _ hpiece')
    refine ⟨m₂, (bind_store hstore).trans hrun, hsize'.trans hsize, fun i hi => ?_⟩
    rw [hbytes' i fun piece' hpiece' => hi piece' (List.mem_cons_of_mem _ hpiece')]
    refine hbytes i fun k hk => ?_
    rw [Nat.add_assoc]
    exact hi piece List.mem_cons_self k hk

theorem fills (type : IrType) : ∀ {v : Value} (_ : type.Admits v) (m : Memory) {a : Nat},
    layout.sizeOf type < maxU64 → memoryBase ≤ a ∧ a + layout.sizeOf type ≤ m.size →
      Fills m a v type := by
  induction type using IrType.pieces_induction with
  | step type ih =>
    intro v hv m a hs ha
    cases haggregate : type.isAggregate with
    | false =>
      -- a scalar occupies its whole range
      obtain ⟨m', hstore, hrewrites, -⟩ := keeps type hv m hs ha
      refine ⟨m', hstore, hrewrites.size, fun i hi => hrewrites.bytes i ?_⟩
      by_contra hin
      refine hi (i - a) (.scalar haggregate (by omega)) (by omega)
    | true =>
      obtain ⟨items, rfl, hitems⟩ := (IrType.admits_iff_pieces haggregate).mp hv
      have hlen := hitems.length_eq
      have hinside (piece : Nat × IrType) (hpiece : piece ∈ type.pieces) (m' : Memory)
          (hm' : m'.size = m.size) : a + piece.1 + layout.sizeOf piece.2 ≤ m'.size := by
        have := IrType.piece_le hs hpiece
        omega
      have hfill : List.Forall₂ (fun piece item => ∀ m' : Memory,
          a + piece.1 + layout.sizeOf piece.2 ≤ m'.size → Fills m' (a + piece.1) item piece.2)
          type.pieces items := by
        refine ((List.forall₂_and_left _ _).mpr ⟨fun _ hpiece => hpiece, hitems⟩).imp ?_
        intro piece item hpiece m' hm'
        exact ih piece hpiece.1 hpiece.2 m' (IrType.piece_lt hs hpiece.1) ⟨by omega, hm'⟩
      obtain ⟨m', hrun, hsize, hbytes⟩ := fills_pieces hfill m fun piece hpiece =>
        hinside piece hpiece m rfl
      refine ⟨m', ?_, hsize, fun i hi => hbytes i fun piece hpiece k hk => ?_⟩
      · rw [store_eq_forM haggregate, IrType.parts_eq_zip haggregate hlen]
        exact hrun
      · exact hi _ (.piece hpiece hk)

/-- A value is stored at any place with room for its type and loaded from there again.  No other byte
changes, neither around the value nor in the padding inside it. -/
theorem load_store (type : IrType) {v : Value} (hv : type.Admits v) (m : Memory) {a : Nat}
    (hs : layout.sizeOf type < maxU64) (ha : memoryBase ≤ a ∧ a + layout.sizeOf type ≤ m.size) :
    ∃ m', store a v type m = .ok () m' ∧ m'.load a type = .ok v ∧ m'.size = m.size ∧
      (∀ i, (i < a ∨ a + layout.sizeOf type ≤ i) → m'.bytes[i]? = m.bytes[i]?) ∧
      ∀ k, ¬ type.Occupies k → m'.bytes[a + k]? = m.bytes[a + k]? := by
  obtain ⟨m', hstore, hrewrites, hload⟩ := keeps type hv m hs ha
  obtain ⟨m₁, hstore₁, -, hbytes⟩ := fills type hv m hs ha
  have hsame : m₁ = m' := by
    rw [hstore] at hstore₁
    cases hstore₁
    rfl
  subst hsame
  refine ⟨m₁, hstore, hload, hrewrites.size, hrewrites.bytes, fun k hk => hbytes _ ?_⟩
  rintro j hj hjk
  exact hk (by rwa [Nat.add_left_cancel hjk])

/-- A byte, two packed pairs of a short and an address, and a bit, with padding behind the byte. -/
def rowType : IrType :=
  .struct [.i8, .array (.struct [.i16, .ptr .i8] true none) 2, .i1, .vector .i32 2] false (some "Row")

def row : Value :=
  .aggregate [.int 200 8,
    .aggregate [.aggregate [.int 513 16, .ptr 16], .aggregate [.int 65535 16, .ptr maxU64]],
    .int 1 1, .aggregate [.int 7 32, .int 4294967295 32]]

theorem admits_row : rowType.Admits row := by
  refine ⟨_, rfl, ⟨200, rfl, by decide⟩, ⟨_, rfl, rfl, ?_⟩, ⟨1, rfl, by decide⟩, ⟨_, rfl, rfl, ?_⟩, trivial⟩
  · intro item hitem
    rcases List.mem_cons.mp hitem with rfl | hitem
    · exact ⟨_, rfl, ⟨513, rfl, by decide⟩, ⟨16, rfl, by decide⟩, trivial⟩
    · rw [List.mem_singleton.mp hitem]
      exact ⟨_, rfl, ⟨65535, rfl, by decide⟩, ⟨maxU64, rfl, le_refl _⟩, trivial⟩
  · intro item hitem
    rcases List.mem_cons.mp hitem with rfl | hitem
    · exact ⟨7, rfl, by decide⟩
    · rw [List.mem_singleton.mp hitem]
      exact ⟨4294967295, rfl, by decide⟩

/-- The row at address 20 of a memory of 64 bytes. -/
theorem load_store_row : let m : Memory := ⟨Array.replicate 64 9, by decide⟩
    layout.sizeOf rowType < maxU64 ∧ (memoryBase ≤ 20 ∧ 20 + layout.sizeOf rowType ≤ m.size) ∧
      rowType.Admits row ∧
      ∃ m', store 20 row rowType m = .ok () m' ∧ m'.load 20 rowType = .ok row ∧ m'.size = m.size ∧
        (∀ i, (i < 20 ∨ 20 + layout.sizeOf rowType ≤ i) → m'.bytes[i]? = m.bytes[i]?) ∧
        ∀ k, ¬ rowType.Occupies k → m'.bytes[20 + k]? = m.bytes[20 + k]? := by
  intro m
  have hsize : layout.sizeOf rowType < maxU64 := by decide
  have hroom : memoryBase ≤ 20 ∧ 20 + layout.sizeOf rowType ≤ m.size := by decide
  exact ⟨hsize, hroom, admits_row, load_store rowType admits_row m hsize hroom⟩

end Memory
end Machine
end UnitCompiler
