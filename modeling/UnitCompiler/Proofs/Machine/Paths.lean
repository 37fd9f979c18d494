import Mathlib
import UnitCompiler.Proofs.Machine.Aggregates
import UnitCompiler.Proofs.Machine.Pieces

/-!
# Index paths

An index path leads to a part of a type, to an address in memory and to an item of a value.  The three
agree: the address lies in the storage of the whole, what is loaded there is the item, and a store there
is an insertion into the value.
-/

namespace UnitCompiler

attribute [local instance (high)] instPowNat

namespace IrType

open Machine (Value layout)

/-- The field or element at an index. -/
def part? : IrType → Nat → Option IrType
  | .array element length, index | .vector element length, index =>
    if index < length then some element else none
  | .struct fields _ _, index => fields[index]?
  | _, _ => none

/-- The part of a type at the end of an index path. -/
def partAt? : IrType → List Nat → Option IrType
  | type, [] => some type
  | type, index :: path => (type.part? index).bind (partAt? · path)

mutual

/-- Whether some part of the type is a float. -/
def hasFloat : IrType → Bool
  | .f16 | .bf16 | .f32 | .f64 | .f128 => true
  | .array element _ | .vector element _ => hasFloat element
  | .struct fields _ _ => anyHasFloat fields
  | _ => false

def anyHasFloat : List IrType → Bool
  | [] => false
  | field :: rest => hasFloat field || anyHasFloat rest

end

theorem hasFloat_of_mem_pieces {type : IrType} {piece : Nat × IrType} (h : piece ∈ type.pieces)
    (hfloat : type.hasFloat = false) : piece.2.hasFloat = false := by
  have hfields (fields : List IrType) (hany : anyHasFloat fields = false) :
      ∀ field ∈ fields, field.hasFloat = false := by
    induction fields with
    | nil => simp
    | cons field rest ih =>
      obtain ⟨hfirst, hrest⟩ := Bool.or_eq_false_iff.mp hany
      exact List.forall_mem_cons.mpr ⟨hfirst, ih hrest⟩
  cases type with
  | array element length | vector element length =>
    obtain ⟨i, -, rfl⟩ := List.mem_map.mp h
    exact hfloat
  | struct fields isPacked name => exact hfields fields hfloat piece.2 (List.of_mem_zip h).2
  | _ => simp [pieces] at h

theorem isAggregate_of_mem_pieces {type : IrType} {piece : Nat × IrType} (h : piece ∈ type.pieces) :
    type.isAggregate = true := by
  cases type <;> first | rfl | simp [pieces] at h

theorem part?_eq_some {type part : IrType} {index : Nat} (h : type.part? index = some part) :
    ∃ start, type.pieces[index]? = some (start, part) := by
  cases type with
  | array element length | vector element length =>
    obtain ⟨hindex, rfl⟩ : index < length ∧ element = part := by simpa [part?] using h
    exact ⟨layout.sizeOf element * index, by simp [pieces, hindex]⟩
  | struct fields isPacked name =>
    have hlen : (layout.fieldOffsets fields isPacked).length = fields.length :=
      length_placeFields fields isPacked 0 1
    have hindex : index < (layout.fieldOffsets fields isPacked).length := by
      rw [hlen]
      exact (List.getElem?_eq_some_iff.mp h).1
    exact ⟨_, List.getElem?_zip_eq_some.mpr ⟨List.getElem?_eq_getElem hindex, h⟩⟩
  | _ => simp [part?] at h

/-- An index path leads to a part of a type that lies at an offset. -/
inductive Reaches : IrType → List Nat → Nat → IrType → Prop
  | whole (type : IrType) : Reaches type [] 0 type
  | step {type field part : IrType} {index start offset : Nat} {path : List Nat} :
    type.pieces[index]? = some (start, field) → Reaches field path offset part →
      Reaches type (index :: path) (start + offset) part

theorem exists_reaches {path : List Nat} {type part : IrType} (h : type.partAt? path = some part) :
    ∃ offset, Reaches type path offset part := by
  induction path generalizing type with
  | nil =>
    cases h
    exact ⟨0, .whole _⟩
  | cons index path ih =>
    obtain ⟨field, hfield, hrest⟩ := Option.bind_eq_some_iff.mp h
    obtain ⟨start, hpiece⟩ := part?_eq_some hfield
    obtain ⟨offset, hreaches⟩ := ih hrest
    exact ⟨start + offset, .step hpiece hreaches⟩

/-- A part lies within the whole. -/
theorem Reaches.inside {type part : IrType} {path : List Nat} {offset : Nat}
    (h : Reaches type path offset part) (hs : layout.sizeOf type < maxU64) :
    offset + layout.sizeOf part ≤ layout.sizeOf type := by
  induction h with
  | whole => exact (Nat.zero_add _).le
  | @step type field part index start offset path hpiece _ ih =>
    have hmem := List.mem_of_getElem? hpiece
    have hle : start + layout.sizeOf field ≤ layout.sizeOf type := piece_le hs hmem
    have := ih (piece_lt hs hmem)
    omega

end IrType

namespace Machine

section Lists

variable {α β : Type} {R S : α → β → Prop} {l : List α} {l' : List β} {i : Nat} {a : α} {b : β}

theorem exists_getElem?_of_forall₂ (h : List.Forall₂ R l l') (ha : l[i]? = some a) :
    ∃ b, l'[i]? = some b ∧ R a b := by
  obtain ⟨hlen, hget⟩ := List.forall₂_iff_get.mp h
  obtain ⟨hi, rfl⟩ := List.getElem?_eq_some_iff.mp ha
  exact ⟨l'[i], List.getElem?_eq_getElem _, hget i hi (hlen ▸ hi)⟩

/-- A list in relation to another one stays so when one of its items is set to a new one. -/
theorem forall₂_set (h : List.Forall₂ R l l') (ha : l[i]? = some a) (hb : S a b)
    (hothers : ∀ j x y, j ≠ i → l[j]? = some x → R x y → S x y) :
    List.Forall₂ S l (l'.set i b) := by
  obtain ⟨hlen, hget⟩ := List.forall₂_iff_get.mp h
  refine List.forall₂_iff_get.mpr ⟨by rw [List.length_set, hlen], fun j hj hj' => ?_⟩
  simp only [List.get_eq_getElem] at hget ⊢
  rw [List.getElem_set]
  split_ifs with hij
  · obtain ⟨hi, rfl⟩ := List.getElem?_eq_some_iff.mp ha
    subst hij
    exact hb
  · exact hothers j _ _ (Ne.symm hij) (List.getElem?_eq_getElem _) (hget j hj (hlen ▸ hj))

end Lists

/-! ### Paths in values -/

section Values

variable {path other : List Nat} {v v' e x : Value}

theorem insertAt_cons {index : Nat} (h : insertAt v e (index :: path) = .ok v') :
    ∃ items item item', v = .aggregate items ∧ items[index]? = some item ∧
      insertAt item e path = .ok item' ∧ v' = .aggregate (items.set index item') ∧
      (items.set index item')[index]? = some item' := by
  cases v with
  | aggregate items =>
    simp only [insertAt] at h
    cases hitem : items[index]? with
    | none => simp [hitem] at h
    | some item =>
      simp only [hitem] at h
      cases hinner : insertAt item e path with
      | error fault => simp [hinner, bind, Except.bind] at h
      | ok item' =>
        rw [hinner] at h
        cases h
        have hlt := (List.getElem?_eq_some_iff.mp hitem).1
        exact ⟨items, item, item', rfl, hitem, hinner, rfl, List.getElem?_set_self hlt⟩
  | _ => simp [insertAt] at h

/-- What was inserted is extracted. -/
theorem extractAt_of_insertAt (h : insertAt v e path = .ok v') : extractAt v' path = .ok e := by
  induction path generalizing v v' with
  | nil =>
    cases h
    rfl
  | cons index path ih =>
    obtain ⟨items, item, item', -, -, hinner, rfl, hget⟩ := insertAt_cons h
    simp only [extractAt, hget]
    exact ih hinner

/-- An insertion leaves the items alone whose paths neither contain the path nor lie on it. -/
theorem extractAt_insertAt_of_apart (h : insertAt v e path = .ok v') (hpath : ¬ path <+: other)
    (hother : ¬ other <+: path) : extractAt v' other = .ok x ↔ extractAt v other = .ok x := by
  induction path generalizing v v' other with
  | nil => exact absurd List.nil_prefix hpath
  | cons index path ih =>
    cases other with
    | nil => exact absurd List.nil_prefix hother
    | cons index' other =>
      obtain ⟨items, item, item', rfl, hitem, hinner, rfl, hget⟩ := insertAt_cons h
      simp only [extractAt]
      rcases eq_or_ne index index' with rfl | hne
      · rw [List.prefix_cons_inj] at hpath hother
        simp only [hget, hitem]
        exact ih hinner hpath hother
      · rw [List.getElem?_set_ne hne]
        cases items[index']? <;> simp

end Values

/-! ### Paths in memory -/

namespace Memory

variable {m m' : Memory} {a : Nat} {type part : IrType} {path : List Nat} {offset : Nat}

theorem ofLowBytes_lt (bytes : List UInt8) : ofLowBytes bytes < 256 ^ bytes.length := by
  induction bytes with
  | nil => simp [ofLowBytes]
  | cons b rest ih =>
    have hb : b.toNat < 256 := b.toNat_lt
    rw [ofLowBytes, List.length_cons, Nat.pow_succ']
    omega

theorem readWord_lt {count : Nat} (h : memoryBase ≤ a ∧ a + count ≤ m.size) :
    ∃ n, m.readWord a count = .ok n ∧ n < 256 ^ count := by
  refine ⟨_, readWord_eq (checkAccess_eq_ok.mpr h), ?_⟩
  have hlt := ofLowBytes_lt (m.bytes.extract a (a + count)).toList
  have hsize : (m.bytes.extract a (a + count)).size = count := by
    rw [Array.size_extract]
    have := h.2
    unfold size at this
    omega
  rwa [Array.length_toList, hsize] at hlt

theorem loadInt_admits {bits count : Nat} (h : memoryBase ≤ a ∧ a + count ≤ m.size) :
    ∃ v, m.loadInt a bits count = .ok v ∧ v.IsWord bits := by
  obtain ⟨n, hread, -⟩ := readWord_lt h
  refine ⟨.int (Word.mask bits n) bits, ?_, _, rfl, Word.mask_lt _ _⟩
  rw [loadInt, hread]
  rfl

theorem loadPtr_admits (h : memoryBase ≤ a ∧ a + 8 ≤ m.size) :
    ∃ v, (m.readWord a 8).map Value.ptr = .ok v ∧ ∃ address, v = .ptr address ∧ address ≤ maxU64 := by
  obtain ⟨n, hread, hlt⟩ := readWord_lt h
  refine ⟨.ptr n, by rw [hread]; rfl, n, rfl, ?_⟩
  unfold maxU64
  omega

/-- A place with room for a type without floats holds a value of the type. -/
theorem load_admits (type : IrType) : ∀ {a : Nat}, type.hasFloat = false →
    layout.sizeOf type < maxU64 → memoryBase ≤ a ∧ a + layout.sizeOf type ≤ m.size →
      ∃ v, m.load a type = .ok v ∧ type.Admits v := by
  induction type using IrType.pieces_induction with
  | step type ih =>
    intro a hfloat hs ha
    cases haggregate : type.isAggregate with
    | true =>
      have hpieces : ∀ pieces : List (Nat × IrType), (∀ piece ∈ pieces, piece ∈ type.pieces) →
          ∃ items, List.Forall₂ (fun piece item =>
            m.load (a + piece.1) piece.2 = .ok item ∧ piece.2.Admits item) pieces items := by
        intro pieces hmem
        induction pieces with
        | nil => exact ⟨[], .nil⟩
        | cons piece rest ihrest =>
          have hpiece := hmem piece List.mem_cons_self
          have hle := IrType.piece_le hs hpiece
          obtain ⟨item, hitem⟩ := ih piece hpiece (IrType.hasFloat_of_mem_pieces hpiece hfloat)
            (IrType.piece_lt hs hpiece) (show memoryBase ≤ a + piece.1 ∧ _ from ⟨by omega, by omega⟩)
          obtain ⟨items, hitems⟩ := ihrest fun p hp => hmem p (List.mem_cons_of_mem _ hp)
          exact ⟨item :: items, .cons hitem hitems⟩
      obtain ⟨items, hitems⟩ := hpieces type.pieces fun _ h => h
      exact ⟨.aggregate items, (load_eq_ok_iff haggregate).mpr ⟨items, rfl, hitems.imp fun _ _ h => h.1⟩,
        (IrType.admits_iff_pieces haggregate).mpr ⟨items, rfl, hitems.imp fun _ _ h => h.2⟩⟩
    | false =>
      cases type with
      | i1 | i8 | i16 | i32 | i64 | i128 => exact loadInt_admits ha
      | ptr _ | function _ _ _ => exact loadPtr_admits ha
      | void => exact ⟨.void, rfl, rfl⟩
      | array _ _ | vector _ _ | struct _ _ _ => simp [IrType.isAggregate] at haggregate
      | _ => simp [IrType.hasFloat] at hfloat

/-- What is loaded from the place of a part is the item at its path. -/
theorem load_of_reaches (h : type.Reaches path offset part) {v : Value} (hload : m.load a type = .ok v) :
    ∃ item, extractAt v path = .ok item ∧ m.load (a + offset) part = .ok item := by
  induction h generalizing a v with
  | whole => exact ⟨v, rfl, hload⟩
  | @step type field part index start offset path hpiece _ ih =>
    have hmem := List.mem_of_getElem? hpiece
    obtain ⟨items, rfl, hitems⟩ :=
      (load_eq_ok_iff (IrType.isAggregate_of_mem_pieces hmem)).mp hload
    obtain ⟨item, hitem, hfield⟩ := exists_getElem?_of_forall₂ hitems hpiece
    obtain ⟨x, hextract, hx⟩ := ih hfield
    refine ⟨x, ?_, by rwa [← Nat.add_assoc]⟩
    simp only [extractAt, hitem]
    exact hextract

/-- After the bytes of a part are rewritten, what is loaded is the value before with the new item. -/
theorem load_of_rewrites (h : type.Reaches path offset part) (hs : layout.sizeOf type < maxU64)
    (ha : a + layout.sizeOf type ≤ m.size) (hrewrites : Rewrites m m' (a + offset) (layout.sizeOf part))
    {v e : Value} (hload : m.load a type = .ok v) (he : m'.load (a + offset) part = .ok e) :
    ∃ v', insertAt v e path = .ok v' ∧ m'.load a type = .ok v' := by
  induction h generalizing a v with
  | whole => exact ⟨e, rfl, he⟩
  | @step type field part index start offset path hpiece hreaches ih =>
    have hmem := List.mem_of_getElem? hpiece
    have haggregate := IrType.isAggregate_of_mem_pieces hmem
    have hlt : layout.sizeOf field < maxU64 := IrType.piece_lt hs hmem
    have hinside := hreaches.inside hlt
    have hle : start + layout.sizeOf field ≤ layout.sizeOf type := IrType.piece_le hs hmem
    obtain ⟨items, rfl, hitems⟩ := (load_eq_ok_iff haggregate).mp hload
    obtain ⟨item, hitem, hfield⟩ := exists_getElem?_of_forall₂ hitems hpiece
    rw [← Nat.add_assoc] at hrewrites he
    obtain ⟨item', hinsert, hitem'⟩ := ih hlt (by omega) hrewrites hfield he
    refine ⟨.aggregate (items.set index item'), ?_, (load_eq_ok_iff haggregate).mpr ⟨_, rfl, ?_⟩⟩
    · simp only [insertAt, hitem, hinsert]
      rfl
    · -- the other pieces lie apart from the one that was rewritten
      refine forall₂_set hitems hpiece hitem' fun j piece item hj hpiece' hold => ?_
      have hmem' := List.mem_of_getElem? hpiece'
      have hle' := IrType.piece_le hs hmem'
      have hapart := IrType.pieces_apart hs hpiece hpiece' hj.symm a
      rw [hrewrites.load (IrType.piece_lt hs hmem') ?_ (by omega)]
      · exact hold
      · unfold Apart at hapart ⊢
        simp only at hapart hinside
        omega

end Memory

/-! ### Addresses -/

/-- An operand stands for an index of at most 64 bits in a frame. -/
structure Indexes (i : Image) (frame : Frame) (o : Operand) (index : Nat) : Prop where
  value : ∃ v, i.eval frame o = .ok v ∧ v.signed? = some (index : Int)
  fits : index ≤ maxU64

section Addresses

variable {i : Image} {frame : Frame} {type part : IrType} {path : List Nat} {offset : Nat}

theorem indexStep_of_piece {index start : Nat} (h : type.pieces[index]? = some (start, part))
    (hindex : index ≤ maxU64) : indexStep type index = .ok (start, part) := by
  cases type with
  | array element length | vector element length =>
    rw [IrType.pieces, List.getElem?_map] at h
    obtain ⟨k, hk, hpiece⟩ := Option.map_eq_some_iff.mp h
    obtain ⟨hlt, rfl⟩ := List.getElem?_eq_some_iff.mp hk
    rw [List.getElem_range] at hpiece
    cases hpiece
    simp only [indexStep, Nat.cast_mul, mul_comm]
  | struct fields isPacked name =>
    obtain ⟨hoffset, hfield⟩ := List.getElem?_zip_eq_some.mp h
    simp only [indexStep, toU64_natCast hindex, hoffset, hfield]
  | _ => simp [IrType.pieces] at h

theorem followIndices_of_reaches (h : type.Reaches path offset part) {operands : List Operand}
    (hoperands : List.Forall₂ (Indexes i frame) operands path) (address : Int) :
    followIndices i frame type address operands = .ok (address + offset) := by
  induction h generalizing operands address with
  | whole =>
    cases hoperands
    simp [followIndices]
  | @step type field part index start offset path hpiece _ ih =>
    obtain _ | ⟨hfirst, hrest⟩ := hoperands
    obtain ⟨v, heval, hsigned⟩ := hfirst.value
    have hstep := indexStep_of_piece hpiece hfirst.fits
    simp only [followIndices, heval, bind, Except.bind, hsigned, Option.getD_some, hstep]
    rw [ih hrest, Nat.cast_add, add_assoc]

/-- The address at the end of a path behind a zero is that of the part. -/
theorem elementAddress_of_reaches (h : type.Reaches path offset part) {base first : Operand}
    {operands : List Operand} {a : Nat} (hbase : Carries i frame base (.ptr a) (.ptr type))
    (hfirst : Indexes i frame first 0) (hoperands : List.Forall₂ (Indexes i frame) operands path)
    (ha : a + offset ≤ maxU64) :
    elementAddress i frame base (first :: operands) = .ok (.ptr (a + offset)) := by
  obtain ⟨v, heval, hsigned⟩ := hfirst.value
  have hsum : (a : Int) + ((0 : Nat) : Int) * layout.sizeOf type + offset = ((a + offset : Nat) : Int) := by
    push_cast
    ring
  simp only [elementAddress, hbase.typeOf, evalPtr_of_eval hbase.eval, IrType.pointee?, heval, hsigned,
    followIndices_of_reaches h hoperands, bind, Except.bind, pure, Except.pure, Option.getD_some]
  rw [hsum, toU64_natCast ha]

end Addresses

/-- Access by address and access by path agree.  Where memory has room for a type without floats, the
address that an index path leads to lies in that room; what is loaded there is the item at the path in
the value of the whole; and a store of a value there inserts it into the whole at the path, where it is
found again, while the items apart from the path stay as they are. -/
theorem Memory.access_path {m : Memory} (hm : m.size ≤ maxU64) {a : Nat} {type : IrType}
    (hfloat : type.hasFloat = false) (ha : memoryBase ≤ a ∧ a + layout.sizeOf type ≤ m.size)
    {path : List Nat} {part : IrType} (hpart : type.partAt? path = some part) {i : Image} {frame : Frame}
    {base first : Operand} {operands : List Operand}
    (hbase : Carries i frame base (.ptr a) (.ptr type)) (hfirst : Indexes i frame first 0)
    (hoperands : List.Forall₂ (Indexes i frame) operands path) :
    ∃ offset, elementAddress i frame base (first :: operands) = .ok (.ptr (a + offset)) ∧
      offset + layout.sizeOf part ≤ layout.sizeOf type ∧
      ∃ v item, m.load a type = .ok v ∧ m.load (a + offset) part = .ok item ∧
        extractAt v path = .ok item ∧
        ∀ e, part.Admits e → ∃ m' v', Memory.store (a + offset) e part m = .ok () m' ∧
          insertAt v e path = .ok v' ∧ m'.load a type = .ok v' ∧ extractAt v' path = .ok e ∧
          ∀ other x, ¬ path <+: other → ¬ other <+: path →
            (extractAt v' other = .ok x ↔ extractAt v other = .ok x) := by
  have hbaseline : 0 < memoryBase := by decide
  have hs : layout.sizeOf type < maxU64 := by omega
  obtain ⟨offset, hreaches⟩ := IrType.exists_reaches hpart
  have hinside := hreaches.inside hs
  obtain ⟨v, hload, -⟩ := load_admits type hfloat hs ha
  obtain ⟨item, hextract, hitem⟩ := load_of_reaches hreaches hload
  refine ⟨offset, elementAddress_of_reaches hreaches hbase hfirst hoperands (by omega), hinside,
    v, item, hload, hitem, hextract, fun e he => ?_⟩
  obtain ⟨m', hstore, hrewrites, hback⟩ :=
    keeps part he m (by omega) (show memoryBase ≤ a + offset ∧ _ from ⟨by omega, by omega⟩)
  obtain ⟨v', hinsert, hload'⟩ := load_of_rewrites hreaches hs ha.2 hrewrites hload hback
  exact ⟨m', v', hstore, hinsert, hload', extractAt_of_insertAt hinsert,
    fun other x hpath hother => extractAt_insertAt_of_apart hinsert hpath hother⟩

/-- A frame whose first argument is the address of the row. -/
def rowFrame : Frame where
  signature := ⟨[.ptr Memory.rowType], .void, false⟩
  args := [.ptr 20]

/-- The address in the second pair of the row. -/
theorem Memory.access_path_row : let m : Memory := ⟨Array.replicate 64 9, by decide⟩
    let i : Image := ⟨{}, []⟩
    m.size ≤ maxU64 ∧ rowType.hasFloat = false ∧
      (memoryBase ≤ 20 ∧ 20 + layout.sizeOf rowType ≤ m.size) ∧
      rowType.partAt? [1, 1, 1] = some (.ptr .i8) ∧
      Carries i rowFrame (.argument 0) (.ptr 20) (.ptr rowType) ∧ Indexes i rowFrame (constI32 0) 0 ∧
      List.Forall₂ (Indexes i rowFrame) [constI32 1, constI32 1, constI32 1] [1, 1, 1] ∧
      ∃ offset, elementAddress i rowFrame (.argument 0) [constI32 0, constI32 1, constI32 1, constI32 1] =
          .ok (.ptr (20 + offset)) ∧
        offset + layout.sizeOf (.ptr .i8) ≤ layout.sizeOf rowType ∧
        ∃ v item, m.load 20 rowType = .ok v ∧ m.load (20 + offset) (.ptr .i8) = .ok item ∧
          extractAt v [1, 1, 1] = .ok item ∧
          ∀ e, (IrType.ptr .i8).Admits e → ∃ m' v',
            Memory.store (20 + offset) e (.ptr .i8) m = .ok () m' ∧
            insertAt v e [1, 1, 1] = .ok v' ∧ m'.load 20 rowType = .ok v' ∧
            extractAt v' [1, 1, 1] = .ok e ∧
            ∀ other x, ¬ [1, 1, 1] <+: other → ¬ other <+: [1, 1, 1] →
              (extractAt v' other = .ok x ↔ extractAt v other = .ok x) := by
  intro m i
  have hindex (n : Nat) (hn : n < 2 ^ 31) : Indexes i rowFrame (constI32 n) n :=
    ⟨eval_constI32 i rowFrame hn, hn.le.trans (by decide)⟩
  have hone : Indexes i rowFrame (constI32 1) 1 := hindex 1 (by decide)
  have hm : m.size ≤ maxU64 := by decide
  have ha : memoryBase ≤ 20 ∧ 20 + layout.sizeOf rowType ≤ m.size := by decide
  have hbase : Carries i rowFrame (.argument 0) (.ptr 20) (.ptr rowType) := ⟨rfl, rfl⟩
  have hpath : List.Forall₂ (Indexes i rowFrame) [constI32 1, constI32 1, constI32 1] [1, 1, 1] :=
    .cons hone (.cons hone (.cons hone .nil))
  exact ⟨hm, rfl, ha, rfl, hbase, hindex 0 (by decide), hpath,
    Memory.access_path hm rfl ha rfl hbase (hindex 0 (by decide)) hpath⟩

end Machine
end UnitCompiler
