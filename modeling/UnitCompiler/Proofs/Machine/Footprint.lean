import UnitCompiler.Proofs.Machine.Boot
import UnitCompiler.Proofs.Machine.Pieces

/-!
# The bytes that a store writes

Which bytes a store writes depends on the value and the type alone: it writes the same ones in every
memory, and of these only some when it ends with a fault.  A struct takes as many items of a value as
it has fields; an array or a vector takes all of them, so that a value with more items than the type
has elements is written past the end of the type.  Every other value stays inside of its type, and then
the initial value of a variable leaves the other variables alone.
-/

namespace UnitCompiler

attribute [local instance (high)] instPowNat

namespace IrType

open Machine (Value layout)

/-- The bytes that a store writes, counted from its address. -/
inductive Writes : IrType → Value → Nat → Prop
  | scalar {type : IrType} {v : Value} {k : Nat} :
    type.isAggregate = false → k < layout.sizeOf type → Writes type v k
  | part {type : IrType} {v : Value} {part : (Nat × IrType) × Value} {k : Nat} :
    part ∈ type.parts v → Writes part.1.2 part.2 k → Writes type v (part.1.1 + k)

theorem Writes.lt_of_scalar {type : IrType} {v : Value} {k : Nat} (h : type.Writes v k)
    (hscalar : type.isAggregate = false) : k < layout.sizeOf type := by
  cases h with
  | scalar _ hk => exact hk
  | part hpart _ => cases type <;> simp [isAggregate, parts] at hscalar hpart

theorem sizeOf_lt_of_mem_parts {type : IrType} {v : Value} {part : (Nat × IrType) × Value}
    (h : part ∈ type.parts v) : SizeOf.sizeOf part.1.2 < SizeOf.sizeOf type := by
  cases v with
  | aggregate items =>
    cases type with
    | array element length | vector element length =>
      obtain ⟨_, -, rfl⟩ := List.mem_map.mp h
      simp only [array.sizeOf_spec, vector.sizeOf_spec]
      omega
    | struct fields isPacked name => exact sizeOf_lt_of_mem_pieces (List.of_mem_zip h).1
    | _ => simp [parts] at h
  | _ => cases type <;> simp [parts] at h

/-- What every type takes over from the types of the parts stored at it holds of all types. -/
theorem parts_induction {P : IrType → Prop}
    (step : ∀ type : IrType, (∀ v, ∀ part ∈ type.parts v, P part.1.2) → P type) (type : IrType) :
    P type :=
  step type fun _ part hpart =>
    have := sizeOf_lt_of_mem_parts hpart
    parts_induction step part.1.2
termination_by SizeOf.sizeOf type

mutual

/-- The type has room for the value: no array and no vector in it has more items than its type has
elements. -/
def HasRoom : IrType → Value → Prop
  | .array element length | .vector element length => fun v =>
    ∀ items, v = .aggregate items → items.length ≤ length ∧ ∀ item ∈ items, HasRoom element item
  | .struct fields _ _ => fun v => ∀ items, v = .aggregate items → HaveRoom fields items
  | _ => fun _ => True

def HaveRoom : List IrType → List Value → Prop
  | type :: types, item :: items => HasRoom type item ∧ HaveRoom types items
  | _, _ => True

end

/-- The parts of a value lie where the pieces of a type with room for it are, and have room there. -/
theorem HasRoom.part {type : IrType} {v : Value} (h : type.HasRoom v) {part : (Nat × IrType) × Value}
    (hpart : part ∈ type.parts v) : part.1 ∈ type.pieces ∧ part.1.2.HasRoom part.2 := by
  have hfields (fields : List IrType) (items : List Value) (hroom : HaveRoom fields items) :
      ∀ offsets : List Nat, ∀ part ∈ (offsets.zip fields).zip items, part.1.2.HasRoom part.2 := by
    induction fields generalizing items with
    | nil => simp
    | cons field rest ih =>
      intro offsets part hpart
      cases offsets with
      | nil => simp at hpart
      | cons offset offsets =>
        cases items with
        | nil => simp at hpart
        | cons item items =>
          rw [List.zip_cons_cons, List.zip_cons_cons, List.mem_cons] at hpart
          rcases hpart with rfl | hpart
          · exact hroom.1
          · exact ih items hroom.2 offsets part hpart
  cases v with
  | aggregate items =>
    cases type with
    | array element length | vector element length =>
      obtain ⟨hlen, hitems⟩ := h items rfl
      obtain ⟨⟨item, i⟩, hitem, rfl⟩ := List.mem_map.mp hpart
      have hget := List.mem_zipIdx_iff_getElem?.mp hitem
      obtain ⟨hi, -⟩ := List.getElem?_eq_some_iff.mp hget
      refine ⟨List.mem_map.mpr ⟨i, List.mem_range.mpr (hi.trans_le hlen), rfl⟩, ?_⟩
      exact hitems item (List.mem_of_getElem? hget)
    | struct fields isPacked name =>
      exact ⟨(List.of_mem_zip hpart).1, hfields fields items (h items rfl) _ part hpart⟩
    | _ => simp [parts] at hpart
  | _ => cases type <;> simp [parts] at hpart

mutual

/-- A type has room for its values. -/
theorem Admits.hasRoom (type : IrType) {v : Value} (h : type.Admits v) : type.HasRoom v := by
  cases type with
  | array element length | vector element length =>
    obtain ⟨items, rfl, hlen, hitems⟩ := h
    intro items' heq
    cases heq
    exact ⟨hlen.le, fun item hitem => Admits.hasRoom element (hitems item hitem)⟩
  | struct fields isPacked name =>
    obtain ⟨items, rfl, hitems⟩ := h
    intro items' heq
    cases heq
    exact AdmitAll.haveRoom fields hitems
  | _ => trivial

theorem AdmitAll.haveRoom (types : List IrType) {items : List Value} (h : AdmitAll types items) :
    HaveRoom types items := by
  cases types with
  | nil => trivial
  | cons type types =>
    cases items with
    | nil => trivial
    | cons item items => exact ⟨Admits.hasRoom type h.1, AdmitAll.haveRoom types h.2⟩

end

mutual

/-- A type has room for its zero, also one that has no values in memory. -/
theorem hasRoom_zero (type : IrType) : type.HasRoom (.zero type) := by
  cases type with
  | array element length | vector element length =>
    intro items heq
    cases heq
    refine ⟨(List.length_replicate).le, fun item hitem => ?_⟩
    rw [List.eq_of_mem_replicate hitem]
    exact hasRoom_zero element
  | struct fields isPacked name =>
    intro items heq
    cases heq
    exact haveRoom_zeros fields
  | _ => trivial

theorem haveRoom_zeros (types : List IrType) : HaveRoom types (Value.zeros types) := by
  cases types with
  | nil => trivial
  | cons type types => exact ⟨hasRoom_zero type, haveRoom_zeros types⟩

end

/-- A value is written inside of a type that has room for it. -/
theorem Writes.lt {type : IrType} {v : Value} {k : Nat} (h : type.Writes v k)
    (hs : layout.sizeOf type < maxU64) (hroom : type.HasRoom v) : k < layout.sizeOf type := by
  induction h with
  | scalar _ hk => exact hk
  | part hpart _ ih =>
    obtain ⟨hpiece, hroom⟩ := hroom.part hpart
    have := piece_le hs hpiece
    have := ih (piece_lt hs hpiece) hroom
    omega

end IrType

namespace Machine
namespace Memory

/-- The memory that a run leaves, also one that ends with a fault. -/
def after : EStateM.Result Fault Memory Unit → Memory
  | .ok _ m | .error _ m => m

theorem writeWord_of_bounds {m : Memory} {a count : Nat} (h : memoryBase ≤ a ∧ a + count ≤ m.size)
    (n : Nat) :
    writeWord a count n m = .ok () (m.write a (lowBytes count n)) := by
  rw [writeWord, checkAccess_eq_ok.mpr h]

theorem overflow_of_checkAccess {m : Memory} {a count : Nat}
    (h : m.checkAccess a count = .error .addressOverflow) : maxU64 < a := by
  unfold checkAccess at h
  split_ifs at h with hover
  · exact hover
  all_goals cases h

/-- A number is written within the memory, or nothing is. -/
theorem writeWord_cases (m : Memory) (a count n : Nat) :
    (∃ e, writeWord a count n m = .error e m ∧ (e = .addressOverflow → maxU64 < a)) ∨
      (memoryBase ≤ a ∧ a + count ≤ m.size) ∧
        writeWord a count n m = .ok () (m.write a (lowBytes count n)) := by
  cases hcheck : m.checkAccess a count with
  | error e =>
    refine Or.inl ⟨e, by rw [writeWord, hcheck], ?_⟩
    rintro rfl
    exact overflow_of_checkAccess hcheck
  | ok u =>
    have hbounds := checkAccess_eq_ok.mp hcheck
    exact Or.inr ⟨hbounds, writeWord_of_bounds hbounds n⟩

/-- A run on memory that writes the bytes at the addresses `written`, with what does not depend on the
bytes that stood there or anywhere else; a fault may leave some of them unwritten.  Where an address leaves
64 bits, it is one of them. -/
structure Overwrites (run : EStateM Fault Memory Unit) (written : Nat → Prop) : Prop where
  size : ∀ m, (after (run m)).size = m.size
  rest : ∀ m i, ¬written i → (after (run m)).bytes[i]? = m.bytes[i]?
  inside : ∀ {m m'}, run m = .ok () m' → ∀ i, written i → i < m.size
  same : ∀ {m₁ m₁'}, run m₁ = .ok () m₁' → ∀ m₂ : Memory, m₂.size = m₁.size →
    ∃ m₂', run m₂ = .ok () m₂' ∧
      ∀ i, (m₂.bytes[i]? = m₁.bytes[i]? ∨ written i) → m₂'.bytes[i]? = m₁'.bytes[i]?
  overflow : ∀ {m m'}, run m = .error .addressOverflow m' → ∃ i, written i ∧ maxU64 < i

namespace Overwrites

variable {run run' : EStateM Fault Memory Unit} {written written' : Nat → Prop}

theorem pure : Overwrites (pure ()) fun _ => False where
  size _ := rfl
  rest _ _ _ := rfl
  inside _ _ h := h.elim
  same h m₂ _ := by
    cases h
    exact ⟨m₂, rfl, fun i hi => hi.resolve_right id⟩
  overflow h := by cases h

theorem throw {e : Fault} (he : e ≠ .addressOverflow) (written : Nat → Prop) :
    Overwrites (throw e) written where
  size _ := rfl
  rest _ _ _ := rfl
  inside h := by cases h
  same h := by cases h
  overflow h := by
    cases h
    exact absurd rfl he

theorem writeWord (a : Nat) {count : Nat} (hcount : 0 < count) (n : Nat) :
    Overwrites (writeWord a count n) fun i => a ≤ i ∧ i < a + count := by
  refine ⟨fun m => ?_, fun m i hi => ?_, fun {m m'} h i hi => ?_, fun {m₁ m₁'} h m₂ hsize => ?_,
    fun {m m'} h => ?_⟩
  · obtain ⟨e, h, -⟩ | ⟨-, h⟩ := writeWord_cases m a count n
    · rw [h]
      rfl
    · rw [h]
      exact size_write _ _ _
  · obtain ⟨e, h, -⟩ | ⟨-, h⟩ := writeWord_cases m a count n
    · rw [h]
      rfl
    · rw [h]
      simp only [after, getElem?_write, length_lowBytes]
      rw [if_neg (by omega)]
  · obtain ⟨e, h', -⟩ | ⟨hbound, -⟩ := writeWord_cases m a count n
    · cases h'.symm.trans h
    · omega
  · obtain ⟨e, h', -⟩ | ⟨hbound, h'⟩ := writeWord_cases m₁ a count n
    · cases h'.symm.trans h
    · cases h'.symm.trans h
      refine ⟨_, writeWord_of_bounds (hsize ▸ hbound) n, fun i hi => ?_⟩
      simp only [getElem?_write, length_lowBytes, hsize]
      split_ifs with hin
      · rfl
      · exact hi.resolve_right fun h => hin ⟨h.1, h.2, h.2.trans_le hbound.2⟩
  · obtain ⟨e, h', hover⟩ | ⟨-, h'⟩ := writeWord_cases m a count n
    · cases h'.symm.trans h
      exact ⟨a, ⟨le_rfl, by omega⟩, hover rfl⟩
    · cases h'.symm.trans h

/-- One run after another writes what both write. -/
theorem seq (h : Overwrites run written) (h' : Overwrites run' written') :
    Overwrites (run >>= fun _ => run') fun i => written i ∨ written' i := by
  have hcases (m : Memory) :
      (∃ e m₁, run m = .error e m₁ ∧ (run >>= fun _ => run') m = .error e m₁) ∨
        ∃ m₁, run m = .ok () m₁ ∧ (run >>= fun _ => run') m = run' m₁ := by
    simp only [bind, EStateM.bind]
    cases run m with
    | error e m₁ => exact Or.inl ⟨e, m₁, rfl, rfl⟩
    | ok u m₁ => exact Or.inr ⟨m₁, rfl, rfl⟩
  have hok {m m' : Memory} (hm : (run >>= fun _ => run') m = .ok () m') :
      ∃ m₁, run m = .ok () m₁ ∧ m₁.size = m.size ∧ run' m₁ = .ok () m' := by
    obtain ⟨e, m₁, -, hbind⟩ | ⟨m₁, hrun, hbind⟩ := hcases m
    · cases hbind.symm.trans hm
    · have hsize := h.size m
      rw [hrun] at hsize
      exact ⟨m₁, hrun, hsize, hbind.symm.trans hm⟩
  refine ⟨fun m => ?_, fun m i hi => ?_, fun hm i hi => ?_, fun hm m₂ hsize₂ => ?_, fun {m m'} hm => ?_⟩
  · have hfirst := h.size m
    obtain ⟨e, m₁, hrun, hbind⟩ | ⟨m₁, hrun, hbind⟩ := hcases m
    · rwa [hbind, ← hrun]
    · rw [hrun] at hfirst
      rw [hbind]
      exact (h'.size m₁).trans hfirst
  · have hfirst := h.rest m i fun hw => hi (Or.inl hw)
    obtain ⟨e, m₁, hrun, hbind⟩ | ⟨m₁, hrun, hbind⟩ := hcases m
    · rwa [hbind, ← hrun]
    · rw [hrun] at hfirst
      rw [hbind]
      exact (h'.rest m₁ i fun hw => hi (Or.inr hw)).trans hfirst
  · obtain ⟨m₁, hm₁, hsize, hm'⟩ := hok hm
    rcases hi with hi | hi
    · exact h.inside hm₁ i hi
    · exact hsize ▸ h'.inside hm' i hi
  · obtain ⟨m₁, hm₁, hsize, hm'⟩ := hok hm
    obtain ⟨m₃, hm₃, hsame⟩ := h.same hm₁ m₂ hsize₂
    have hsize₃ : m₃.size = m₂.size := by
      have hkept := h.size m₂
      rwa [hm₃] at hkept
    obtain ⟨m₄, hm₄, hsame'⟩ := h'.same hm' m₃ (hsize₃.trans (hsize₂.trans hsize.symm))
    obtain ⟨e, m₅, hrun, -⟩ | ⟨m₅, hrun, hbind⟩ := hcases m₂
    · cases hrun.symm.trans hm₃
    · cases hrun.symm.trans hm₃
      refine ⟨m₄, hbind.trans hm₄, fun i hi => hsame' i ?_⟩
      rcases hi with hi | hi | hi
      · exact Or.inl (hsame i (Or.inl hi))
      · exact Or.inl (hsame i (Or.inr hi))
      · exact Or.inr hi
  · obtain ⟨e, m₁, hrun, hbind⟩ | ⟨m₁, hrun, hbind⟩ := hcases m
    · cases hbind.symm.trans hm
      obtain ⟨i, hi, hover⟩ := h.overflow hrun
      exact ⟨i, Or.inl hi, hover⟩
    · obtain ⟨i, hi, hover⟩ := h'.overflow (hbind.symm.trans hm)
      exact ⟨i, Or.inr hi, hover⟩

theorem congr (h : Overwrites run written) (hiff : ∀ i, written i ↔ written' i) :
    Overwrites run written' := by
  rwa [← funext fun i => propext (hiff i)]

theorem forM {α : Type} {f : α → EStateM Fault Memory Unit} {written : α → Nat → Prop} (l : List α)
    (h : ∀ x ∈ l, Overwrites (f x) (written x)) :
    Overwrites (l.forM f) fun i => ∃ x ∈ l, written x i := by
  induction l with
  | nil => exact pure.congr (by simp)
  | cons x l ih =>
    have hrest := ih fun y hy => h y (List.mem_cons_of_mem _ hy)
    exact ((h x List.mem_cons_self).seq hrest).congr (by simp)

end Overwrites

/-- A scalar writes its bytes, or ends with a fault. -/
theorem overwrites_scalar {type : IrType} (h : type.isAggregate = false) (v : Value) (a : Nat) :
    Overwrites (store a v type) fun i => a ≤ i ∧ i < a + layout.sizeOf type := by
  cases type with
  | array | vector | struct => cases h
  | void => exact Overwrites.pure.congr (by simp [DataLayout.sizeOf])
  | f16 | bf16 | f128 => exact .throw (by nofun) _
  | i1 | i8 | i16 | i32 | i64 | i128 | f32 | f64 | ptr | function =>
    cases v <;> first | exact .writeWord _ (by simp [DataLayout.sizeOf, layout]) _ | exact .throw (by nofun) _

/-- Whatever the value and the type, a store writes the bytes that the two write, and no others. -/
theorem overwrites_store (type : IrType) : ∀ (v : Value) (a : Nat),
    Overwrites (store a v type) fun i => ∃ k, type.Writes v k ∧ i = a + k := by
  induction type using IrType.parts_induction with
  | step type ih =>
    intro v a
    cases haggregate : type.isAggregate with
    | false =>
      refine (overwrites_scalar haggregate v a).congr fun i => ⟨fun hi => ?_, ?_⟩
      · exact ⟨i - a, .scalar haggregate (by omega), by omega⟩
      · rintro ⟨k, hk, rfl⟩
        have := hk.lt_of_scalar haggregate
        omega
    | true =>
      by_cases hv : ∃ items, v = .aggregate items
      · obtain ⟨items, rfl⟩ := hv
        have hparts := Overwrites.forM (type.parts (.aggregate items)) fun part hpart =>
          ih _ part hpart part.2 (a + part.1.1)
        rw [store_eq_forM haggregate]
        refine hparts.congr fun i => ⟨?_, ?_⟩
        · rintro ⟨part, hpart, k, hk, rfl⟩
          exact ⟨part.1.1 + k, .part hpart hk, by omega⟩
        · rintro ⟨k, hk, rfl⟩
          cases hk with
          | scalar h => simp [haggregate] at h
          | part hpart hk => exact ⟨_, hpart, _, hk, by omega⟩
      · -- what is no list of items is refused
        cases type <;> simp only [IrType.isAggregate, Bool.false_eq_true] at haggregate
        all_goals cases v <;> first | exact .throw (by simp) _ | exact absurd ⟨_, rfl⟩ hv

/-! ### Stores that stay inside -/

/-- A store of the value at the type changes no byte outside of the type, in whatever memory and however it
ends, and does not end for want of addresses, wherever the type itself ends within 64 bits. -/
def Confined (v : Value) (type : IrType) : Prop :=
  ∀ m a, a + layout.sizeOf type ≤ maxU64 →
    Rewrites m (after (store a v type m)) a (layout.sizeOf type) ∧
      ∀ m', store a v type m ≠ .error .addressOverflow m'

theorem confined_of_writes {v : Value} {type : IrType}
    (h : ∀ k, type.Writes v k → k < layout.sizeOf type) : Confined v type := by
  intro m a ha
  have hrun := overwrites_store type v a
  refine ⟨⟨hrun.size m, fun i hi => hrun.rest m i ?_⟩, fun m' hover => ?_⟩
  · rintro ⟨k, hk, rfl⟩
    have := h k hk
    omega
  · obtain ⟨i, ⟨k, hk, rfl⟩, hi⟩ := hrun.overflow hover
    have := h k hk
    omega

theorem confined_of_hasRoom {v : Value} {type : IrType} (hs : layout.sizeOf type < maxU64)
    (hroom : type.HasRoom v) : Confined v type :=
  confined_of_writes fun _ hk => hk.lt hs hroom

/-- A value that can be stored at all is confined only if no byte that it writes is outside. -/
theorem writes_lt_of_confined {v : Value} {type : IrType} (h : Confined v type) {m m' : Memory}
    {a : Nat} (hstore : store a v type m = .ok () m') {k : Nat} (hk : type.Writes v k) :
    k < layout.sizeOf type := by
  by_contra hout
  have hrun := overwrites_store type v a
  have hwritten : ∃ j, type.Writes v j ∧ a + k = a + j := ⟨k, hk, rfl⟩
  have hin : a + k < m.bytes.size := hrun.inside hstore _ hwritten
  have hends : a + layout.sizeOf type ≤ maxU64 := by
    have := m.size_lt_maxU64
    simp only [size] at this
    omega
  -- the same store, with another byte in the place
  have hsize : (m.write (a + k) [m.bytes[a + k] + 1]).size = m.size := size_write _ _ _
  set m₂ := m.write (a + k) [m.bytes[a + k] + 1] with hm₂
  obtain ⟨m₂', hstore₂, hsame⟩ := hrun.same hstore m₂ hsize
  have hkept : m'.bytes[a + k]? = m.bytes[a + k]? := by
    have := (h m a hends).1.bytes (a + k) (Or.inr (by omega))
    rwa [hstore] at this
  have hkept₂ : m₂'.bytes[a + k]? = m₂.bytes[a + k]? := by
    have := (h m₂ a hends).1.bytes (a + k) (Or.inr (by omega))
    rwa [hstore₂] at this
  have hbyte : m₂.bytes[a + k]? = m.bytes[a + k]? :=
    hkept₂.symm.trans ((hsame _ (Or.inr hwritten)).trans hkept)
  rw [hm₂, getElem?_write, if_pos ⟨le_rfl, Nat.lt_succ_self _, hin⟩, Nat.sub_self,
    Array.getElem?_eq_getElem hin, List.getElem?_cons_zero, Option.some.injEq] at hbyte
  grind

end Memory

/-! ### Initial values -/

/-- Storing a value at a variable that has room for it leaves every other variable alone. -/
theorem confined_initial {program : Program} {session : Session} (h : boot program = .ok session)
    (hnodup : (program.globals.map (·.name)).Nodup) {v w : GlobalVariable} (hv : v ∈ program.globals)
    (hw : w ∈ program.globals) (hne : v.name ≠ w.name) :
    ∃ a b, session.image.globalAddress? v.name = some a ∧
      session.image.globalAddress? w.name = some b ∧
      ∀ value, v.type.HasRoom value → ∀ m,
        Memory.SameBytes m (Memory.after (Memory.store a value v.type m)) b (layout.sizeOf w.type) := by
  obtain ⟨addresses, m₀, _, halloc, -, rfl⟩ := boot_cases h
  have hallocated := allocateGlobals_spec halloc
  have hnodup' : (addresses.map (·.1)).Nodup := hallocated.names ▸ hnodup
  obtain ⟨a, ha, -, hstop⟩ := hallocated.bounds v hv
  obtain ⟨b, hb, -, -⟩ := hallocated.bounds w hw
  refine ⟨a, b, addressOf_of_mem hnodup' ha, addressOf_of_mem hnodup' hb,
    fun value hroom m i hlo hhi => ?_⟩
  have hsize : layout.sizeOf v.type < maxU64 :=
    (Nat.le_add_left _ _).trans_lt (hstop.trans_lt m₀.size_lt_maxU64)
  have hends : a + layout.sizeOf v.type ≤ maxU64 := hstop.trans m₀.size_lt_maxU64.le
  refine (Memory.confined_of_hasRoom hsize hroom m a hends).1.bytes i ?_
  rcases hallocated.apart hnodup v hv w hw hne a b ha hb with hle | hle
  · exact Or.inr (hle.trans hlo)
  · exact Or.inl (hhi.trans_le hle)

/-- A value is stored inside of a type that has room for it, at every address from which the type ends within
64 bits, and a value that can be stored at all is stored inside exactly if all the bytes it writes are bytes of
the type.  So a variable with room for the value it starts with, as every variable without an initializer has,
leaves the others alone in a program that boots, all of whose addresses are within 64 bits. -/
theorem stores_inside (type : IrType) (v : Value) (hs : layout.sizeOf type < maxU64) :
    (type.HasRoom v → Memory.Confined v type) ∧
    (∀ a m m', Memory.store a v type m = .ok () m' →
      (Memory.Confined v type ↔ ∀ k, type.Writes v k → k < layout.sizeOf type)) ∧
    ∀ program session, boot program = .ok session → (program.globals.map (·.name)).Nodup →
      ∀ g ∈ program.globals, g.type = type → initialValue g = .ok v →
        (g.initializer = none ∨ type.HasRoom v) →
      ∀ other ∈ program.globals, g.name ≠ other.name →
        ∃ a b, session.image.globalAddress? g.name = some a ∧
          session.image.globalAddress? other.name = some b ∧
          ∀ m, Memory.SameBytes m (Memory.after (Memory.store a v type m)) b
            (layout.sizeOf other.type) := by
  refine ⟨Memory.confined_of_hasRoom hs, fun a m m' hstore => ⟨?_, ?_⟩, ?_⟩
  · intro h k hk
    exact Memory.writes_lt_of_confined h hstore hk
  · exact Memory.confined_of_writes
  · rintro program session hboot hnodup g hg rfl hvalue hroom other hother hne
    have hroom : g.type.HasRoom v := by
      rcases hroom with hnone | hroom
      · rw [initialValue, hnone] at hvalue
        cases hvalue
        exact IrType.hasRoom_zero g.type
      · exact hroom
    obtain ⟨a, b, ha, hb, hsame⟩ := confined_initial hboot hnodup hg hother hne
    exact ⟨a, b, ha, hb, hsame v hroom⟩

/-- An array of one byte and a byte behind it. -/
def neighbours : Program where
  globals := [⟨"a", .array .i8 1, none, .external, false, false, none⟩,
    ⟨"b", .i8, none, .external, false, false, none⟩]

/-- The row stays inside of its type.  Two bytes stored at an array of one byte do not; the array that
starts with its bits clear leaves its neighbour alone. -/
theorem stores_inside_row :
    (layout.sizeOf Memory.rowType < maxU64 ∧ Memory.rowType.HasRoom Memory.row ∧
      Memory.Confined Memory.row Memory.rowType) ∧
    (layout.sizeOf (.array .i8 1) < maxU64 ∧
      ¬Memory.Confined (.aggregate [.int 1 8, .int 2 8]) (.array .i8 1)) ∧
    ∃ session, boot neighbours = .ok session ∧
      ∃ a b, session.image.globalAddress? "a" = some a ∧ session.image.globalAddress? "b" = some b ∧
        ∀ m, Memory.SameBytes m
          (Memory.after (Memory.store a (.aggregate [.int 0 8]) (.array .i8 1) m)) b 1 := by
  have hrow : layout.sizeOf Memory.rowType < maxU64 := by decide
  have hbyte : layout.sizeOf (.array .i8 1) < maxU64 := by decide
  have hroom := IrType.Admits.hasRoom _ Memory.admits_row
  refine ⟨⟨hrow, hroom, (stores_inside _ _ hrow).1 hroom⟩, ⟨hbyte, fun h => ?_⟩, _, rfl, ?_⟩
  · -- the second byte is written behind the array
    have hpart : ((1, .i8), .int 2 8) ∈
        IrType.parts (.array .i8 1) (.aggregate [.int 1 8, .int 2 8]) := by
      simp [IrType.parts, DataLayout.sizeOf]
    have hsecond : IrType.Writes (.array .i8 1) (.aggregate [.int 1 8, .int 2 8]) (1 + 0) :=
      .part hpart (.scalar rfl (by decide))
    have hlt := ((stores_inside _ _ hbyte).2.1 16 ⟨Array.replicate 64 9, by decide⟩ _ rfl).mp h _ hsecond
    exact absurd hlt (by decide)
  · exact (stores_inside _ _ hbyte).2.2 neighbours _ rfl (by decide) _ List.mem_cons_self rfl rfl
      (Or.inl rfl) _ (List.mem_cons_of_mem _ List.mem_cons_self) (by decide)

end Machine
end UnitCompiler
