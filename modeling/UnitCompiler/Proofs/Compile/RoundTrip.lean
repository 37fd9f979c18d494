import Mathlib
import UnitCompiler.Proofs.Compile.Actions
import UnitCompiler.Proofs.Compile.Travel

/-!
# There and back

What a sender takes apart the receiver puts together again: the slot of the receiver holds the value that
was passed, in memory that the sender did not have.
-/

namespace UnitCompiler

attribute [local instance (high)] instPowNat

open Machine

namespace Machine

theorem Allots.of_grows {m m' m'' : Memory} {a count : Nat} (h : Grows m m')
    (ha : Allots m' m'' a count) : Allots m m'' a count :=
  ⟨h.trans ha.grows, h.size.trans ha.behind, ha.inside⟩

theorem Allots.trans_grows {m m' m'' : Memory} {a count : Nat} (ha : Allots m m' a count)
    (h : Grows m' m'') : Allots m m'' a count :=
  ⟨ha.grows.trans h, ha.behind, ha.inside.trans h.size⟩

end Machine

namespace PassingClass

/-- The memory that one side of a passage may take. -/
def room (d : DataLayout) (struct register : IrType) : Nat := slotRoom d struct + slotRoom d register

theorem sizes_lt_of_room {d : DataLayout} {struct register : IrType} {n : Nat}
    (h : n + room d struct register ≤ memoryLimit) :
    layout.sizeOf struct < maxU64 ∧ layout.sizeOf register < maxU64 := by
  have hlimit : memoryLimit < maxU64 := by decide
  unfold room slotRoom at h
  omega

/-- A slot behind the memory `m` that holds a value. -/
structure Lands (image : Image) (v : Value) (struct : IrType) (m : Memory) (slot : Operand)
    (b : FunctionBuilder) (frame : Machine.Frame) (s : State) (a : Nat) : Prop where
  slot : Gives image (.ptr a) (.ptr struct) s.memory slot b frame s
  value : s.memory.load a struct = .ok v
  allots : Allots m s.memory a (layout.sizeOf struct)

/-- The value `w` that a receiver is handed over in the memory `m'` becomes a slot with the value `v`
behind the memory `m`. -/
def Delivers (image : Image) (cls : PassingClass) (struct register : IrType)
    (packed : List (IrType × Nat)) (v w : Value) (m m' : Memory) : Prop :=
  ∀ (caller : Caller) (b : FunctionBuilder) (frame : Machine.Frame) (s : State) (index : Nat),
    b.Standing → Carries image frame (.argument index) w register → Grows m' s.memory →
    s.memory.size + room b.layout struct register ≤ memoryLimit →
    Executes image caller (cls.receive (.argument index) struct register packed) b frame s
      fun slot b' frame' s' => ∃ a, Lands image v struct m slot b' frame' s' a

/-- What a sender makes of a value, in memory of its own, is delivered as the value. -/
def Travels (image : Image) (cls : PassingClass) (struct register : IrType)
    (packed : List (IrType × Nat)) (v : Value) : Prop :=
  ∀ (caller : Caller) (value : Operand) (b : FunctionBuilder) (frame : Machine.Frame) (s : State),
    b.Standing → Gives image v struct s.memory value b frame s → memoryBase ≤ s.memory.size →
    s.memory.size + room b.layout struct register ≤ memoryLimit →
    Executes image caller (cls.send value struct register packed) b frame s
      fun o b' frame' s' => Grows s.memory s'.memory ∧
        s'.memory.size ≤ s.memory.size + room b.layout struct register ∧
        ∃ w, Gives image w register s'.memory o b' frame' s' ∧
          Delivers image cls struct register packed v w s.memory s'.memory

section Classes

variable {image : Image} {struct register : IrType} {packed : List (IrType × Nat)} {v : Value}

/-- A copy travels by its address. -/
theorem travels_indirect (hv : struct.Admits v) :
    Travels image .indirect struct (.ptr struct) packed v := by
  intro caller value b frame s hb hvalue hbase hroom
  obtain ⟨hsize, -⟩ := sizes_lt_of_room hroom
  have hslot : s.memory.size + slotRoom b.layout struct ≤ memoryLimit := by
    unfold room at hroom
    omega
  refine (executes_alloca hb hv hbase hslot).bind fun copy b₁ frame₁ s₁ h₁ halloca => ?_
  obtain ⟨a, hcopy, hallots, hgrown⟩ := halloca
  have hvalue₁ : Gives image v struct s₁.memory value b₁ frame₁ s₁ := hvalue.after h₁ rfl
  refine (executes_store h₁.standing hvalue₁.carries hv hcopy.carries.eval hsize
    ⟨hbase.trans hallots.behind, hallots.inside⟩).bind fun _ b₂ frame₂ s₂ h₂ hstore => ?_
  obtain ⟨hrewrites, hload⟩ := hstore
  have hallots₂ := hallots.rewrites hrewrites le_rfl
  refine .pure h₂.standing ⟨hallots₂.grows, ?_, .ptr a, hcopy.after h₂ rfl, ?_⟩
  · rw [hrewrites.size]
    unfold room
    omega
  · intro caller' b' frame' s' index hb' harg hgrows _
    refine .pure hb' ⟨a, ⟨trivial, harg, rfl⟩, ?_, hallots₂.trans_grows hgrows⟩
    rw [Memory.load_of_grows hgrows hsize hallots₂.inside]
    exact hload

/-- The only field of a struct lies within it. -/
theorem single_place {machine : IrType} {name : Option String}
    (h : layout.sizeOf (.struct [machine] false name) < maxU64) :
    ∃ start, layout.fieldOffsets [machine] false = [start] ∧
      start + layout.sizeOf machine ≤ layout.sizeOf (.struct [machine] false name) := by
  have hstop := DataLayout.stop_le_sizeOf layout [machine] false name
  obtain ⟨start, top, -, -, hplace⟩ := DataLayout.placeFields_split (Nat.zero_le maxU64)
    (hstop.trans_lt h)
  refine ⟨start, ?_, ?_⟩
  · rw [DataLayout.fieldOffsets, hplace]
    rfl
  · rw [hplace] at hstop
    exact hstop

/-- A struct with one field travels as the field. -/
theorem travels_single {field : SourceType} {machine : IrType} {name : Option String}
    (halike : machine.Alike register) (hv : (IrType.struct [machine] false name).Admits v) :
    Travels image (.single field) (.struct [machine] false name) register packed v := by
  obtain ⟨item, rfl, hitem⟩ : ∃ item, v = .aggregate [item] ∧ machine.Admits item := by
    obtain ⟨items, rfl, hitems⟩ := hv
    match items with
    | [item] => exact ⟨item, rfl, hitems.1⟩
    | [] => exact hitems.elim
    | _ :: _ :: _ => exact hitems.2.elim
  have hregister := halike.admits hitem
  have hfield : layout.sizeOf register = layout.sizeOf machine := (halike.sizes layout).1
  have hlimit : memoryLimit < maxU64 := by decide
  intro caller value b frame s hb hvalue hbase hroom
  obtain ⟨hsize, hsize'⟩ := sizes_lt_of_room hroom
  obtain ⟨start, hoffsets, hinside⟩ := single_place hsize
  refine (executes_extract hb (eq_void_of_admits hregister) hvalue.carries.eval rfl).imp
    fun o b₁ frame₁ s₁ h₁ hgives => ?_
  have hmemory := hgives.memory
  refine ⟨hmemory ▸ .refl _, by rw [hmemory]; exact Nat.le_add_right _ _, item,
    hmemory.symm ▸ hgives, ?_⟩
  rw [hmemory]
  intro caller' b' frame' s' index hb' harg hgrows hroom'
  have hslotRoom : s'.memory.size + slotRoom b'.layout (.struct [machine] false name) ≤ memoryLimit := by
    unfold room at hroom'
    omega
  refine (executes_alloca hb' hv (hbase.trans hgrows.size) hslotRoom).bind
    fun slot b₂ frame₂ s₂ h₂ halloca => ?_
  obtain ⟨a, hslot, hallots, hgrown⟩ := halloca
  have hstop := hallots.inside
  refine (executes_fieldPtr h₂.standing hslot.carries (show 0 < 2 ^ 31 by decide)
    (by rw [hoffsets]; rfl) rfl (by omega) register).bind fun o₃ b₃ frame₃ s₃ h₃ haddress => ?_
  have harg₃ := h₃.carries (h₂.carries harg trivial) trivial
  have hbehind : memoryBase ≤ a := hbase.trans (hgrows.size.trans hallots.behind)
  refine (executes_store h₃.standing harg₃ hregister haddress.carries.eval hsize' ?_).bind
    fun _ b₄ frame₄ s₄ h₄ hstore => ?_
  · rw [haddress.memory, hfield]
    omega
  obtain ⟨hrewrites, hload⟩ := hstore
  rw [haddress.memory] at hrewrites
  refine .pure h₄.standing ⟨a, (hslot.after h₃ haddress.memory).after h₄ rfl, ?_, ?_⟩
  · rw [Memory.load, hoffsets, Memory.loadFields, ← halike.load, hload]
    rfl
  · exact (hallots.rewrites hrewrites (Nat.le_add_right _ _)).of_grows hgrows

/-- Two floats of one kind lie in memory as a vector of them. -/
structure Pairs (struct register : IrType) : Prop where
  size : layout.sizeOf register = layout.sizeOf struct
  admits : ∀ v, struct.Admits v → register.Admits v
  load : ∀ (m : Memory) (a : Nat), m.load a struct = m.load a register

theorem load_pair {element : IrType} {name : Option String} {size : Nat}
    (hsize : layout.sizeOf element = size) (hoffsets : layout.fieldOffsets [element, element] false = [0, size])
    (m : Memory) (a : Nat) :
    m.load a (.struct [element, element] false name) = m.load a (.vector element 2) := by
  rw [Memory.load, Memory.load, hoffsets, hsize]
  simp only [Memory.loadFields, Memory.loadEach, Nat.mul_zero, Nat.mul_one, Nat.zero_add, Nat.add_zero]
  cases m.load a element with
  | error e => rfl
  | ok x =>
    cases m.load (a + size) element with
    | error e => rfl
    | ok y => rfl

theorem pairs_of_admits {kind : Scalar} {name : Option String} (hk : kind.isFloat = true)
    (hv : (IrType.struct [kind.machineType, kind.machineType] false name).Admits v) :
    Pairs (.struct [kind.machineType, kind.machineType] false name) (.vector kind.machineType 2) := by
  have hadmits : ∀ w, (IrType.struct [kind.machineType, kind.machineType] false name).Admits w →
      (IrType.vector kind.machineType 2).Admits w := by
    intro w hw
    obtain ⟨items, rfl, hitems⟩ := hw
    match items with
    | [x, y] => exact ⟨[x, y], rfl, rfl, by simpa using ⟨hitems.1, hitems.2.1⟩⟩
    | [] => exact hitems.elim
    | [_] => exact hitems.2.elim
    | _ :: _ :: _ :: _ => exact hitems.2.2.elim
  cases kind with
  | float =>
    exact ⟨rfl, hadmits, load_pair rfl (by decide)⟩
  | double =>
    exact ⟨rfl, hadmits, load_pair rfl (by decide)⟩
  | half | bhalf | real =>
    obtain ⟨items, -, hitems⟩ := hv
    match items with
    | [] => exact hitems.elim
    | _ :: _ => exact hitems.1.elim
  | bool | char | uchar | short | ushort | int | uint | long | ulong | cent | ucent => cases hk

/-- Two floats travel as a vector. -/
theorem travels_vector {kind : Scalar} {lanes : Nat} (h : Pairs struct register) (hv : struct.Admits v)
    (hvoid : register.isVoid = false) : Travels image (.vector kind lanes) struct register packed v := by
  have hregister := h.admits v hv
  intro caller value b frame s hb hvalue hbase hroom
  obtain ⟨hsize, hsize'⟩ := sizes_lt_of_room hroom
  have hslotRoom : s.memory.size + slotRoom b.layout register ≤ memoryLimit := by
    unfold room at hroom
    omega
  refine (executes_alloca hb hregister hbase hslotRoom).bind fun temp b₁ frame₁ s₁ h₁ halloca => ?_
  obtain ⟨a, htemp, hallots, hgrown⟩ := halloca
  have hbehind : memoryBase ≤ a := hbase.trans hallots.behind
  have hzero : Carries image frame₁ (.constant (.zero register)) (.zero register) register := ⟨rfl, rfl⟩
  refine (executes_store h₁.standing hzero (admits_zero register hregister) htemp.carries.eval hsize'
    ⟨hbehind, hallots.inside⟩).bind fun _ b₂ frame₂ s₂ h₂ hstore => ?_
  obtain ⟨hrewrites, -⟩ := hstore
  have hallots₂ := hallots.rewrites hrewrites le_rfl
  refine (executes_view h₂.standing (h₂.carries htemp.carries htemp.below) struct).bind
    fun view b₃ frame₃ s₃ h₃ hview => ?_
  have hmemory₃ := hview.memory
  have hvalue₃ := h₃.carries (h₂.carries (h₁.carries hvalue.carries hvalue.below)
    (h₁.below hvalue.below)) (h₂.below (h₁.below hvalue.below))
  refine (executes_store h₃.standing hvalue₃ hv hview.carries.eval hsize ⟨hbehind, ?_⟩).bind
    fun _ b₄ frame₄ s₄ h₄ hstore => ?_
  · rw [hmemory₃, ← h.size]
    exact hallots₂.inside
  obtain ⟨hrewrites', hload⟩ := hstore
  rw [hmemory₃] at hrewrites'
  have hallots₄ := hallots₂.rewrites hrewrites' le_rfl
  rw [h.load] at hload
  have htemp₄ := h₄.carries (h₃.carries (h₂.carries htemp.carries htemp.below) (h₂.below htemp.below))
    (h₃.below (h₂.below htemp.below))
  refine (executes_load h₄.standing (by simp [hvoid]) htemp₄.eval hload).imp
    fun o b₅ frame₅ s₅ h₅ hgives => ?_
  have hmemory := hgives.memory
  refine ⟨hmemory ▸ hallots₄.grows, ?_, v, hmemory.symm ▸ hgives, ?_⟩
  · rw [hmemory, hrewrites'.size, hrewrites.size]
    unfold room
    omega
  rw [hmemory]
  intro caller' b' frame' s' index hb' harg hgrows hroom'
  have hslotRoom' : s'.memory.size + slotRoom b'.layout register ≤ memoryLimit := by
    unfold room at hroom'
    omega
  have hbase' : memoryBase ≤ s'.memory.size := hbase.trans (hallots₄.grows.size.trans hgrows.size)
  refine (executes_alloca hb' hregister hbase' hslotRoom').bind
    fun temp' c₁ frame₁' t₁ k₁ halloca => ?_
  obtain ⟨a', htemp', hallots', -⟩ := halloca
  refine (executes_store k₁.standing (k₁.carries harg trivial) hregister htemp'.carries.eval hsize'
    ⟨hbase'.trans hallots'.behind, hallots'.inside⟩).bind fun _ c₂ frame₂' t₂ k₂ hstore => ?_
  obtain ⟨hrewrites₂, hload₂⟩ := hstore
  refine (executes_view k₂.standing (k₂.carries htemp'.carries htemp'.below) struct).imp
    fun slot c₃ frame₃' t₃ k₃ hslot => ?_
  have hmemory' := hslot.memory
  refine ⟨a', hmemory'.symm ▸ hslot, ?_, ?_⟩
  · rw [hmemory', h.load, hload₂]
  · rw [hmemory', ← h.size]
    exact (hallots'.rewrites hrewrites₂ le_rfl).of_grows (hallots₄.grows.trans hgrows)

/-- The words of some fields take the bits of the fields. -/
theorem packWords_lt {kinds : List Scalar} (hkinds : ∀ field ∈ kinds, field.isInteger = true)
    {items : List Value} (hitems : IrType.AdmitAll (kinds.map Scalar.machineType) items) :
    packWords items < 2 ^ (kinds.map Scalar.bits).sum := by
  induction kinds generalizing items with
  | nil =>
    cases items with
    | nil => exact Nat.one_pos
    | cons item rest => exact hitems.elim
  | cons field rest ih =>
    cases items with
    | nil => exact hitems.elim
    | cons item items =>
      obtain ⟨x, rfl, hx⟩ := isWord_of_admits (hkinds field List.mem_cons_self) hitems.1
      have hrest := ih (fun kind hkind => hkinds kind (List.mem_cons_of_mem _ hkind)) hitems.2
      rw [packWords, List.map_cons, List.sum_cons]
      exact add_shifted_lt hx hrest

/-- Integer fields travel in the bits of one register. -/
theorem travels_merged {kind : Scalar} {kinds : List Scalar} {name : Option String}
    (hkind : kind.isInteger = true) (hkinds : ∀ field ∈ kinds, field.isInteger = true)
    (hfit : (kinds.map Scalar.bits).sum ≤ kind.bits) (hlength : kinds.length ≤ 4)
    (hv : (IrType.struct (kinds.map Scalar.machineType) false name).Admits v) :
    Travels image (.merged kind) (.struct (kinds.map Scalar.machineType) false name) kind.machineType
      (packKinds 0 kinds) v := by
  obtain ⟨items, rfl, hitems⟩ : ∃ items, v = .aggregate items ∧
      IrType.AdmitAll (kinds.map Scalar.machineType) items := by
    simpa only [IrType.Admits] using hv
  have hword : packWords items < 2 ^ kind.bits :=
    (packWords_lt hkinds hitems).trans_le (Nat.pow_le_pow_right (by decide) hfit)
  intro caller value b frame s hb hvalue hbase hroom
  obtain ⟨hsize, -⟩ := sizes_lt_of_room hroom
  have hzero : Gives image (.int 0 kind.bits) kind.machineType s.memory (constInt 0 kind.machineType) b
      frame s := ⟨trivial, ⟨eval_constOffset image frame hkind kind.bits_pos, rfl⟩, rfl⟩
  have hmerge : Executes image caller (((packKinds 0 kinds).zipIdx 0).foldlM
      (mergeField value kind.machineType) (constInt 0 kind.machineType)) b frame s
      (Gives image (.int (0 + 2 ^ 0 * packWords items) kind.bits) kind.machineType s.memory) :=
    executes_merge kinds hb hkind hkinds hitems (by rw [Nat.zero_add]; exact hfit) hvalue rfl Nat.one_pos
      hzero
  rw [Nat.zero_add, pow_zero, Nat.one_mul] at hmerge
  refine Executes.imp hmerge fun o b₁ frame₁ s₁ h₁ hgives => ?_
  have hmemory := hgives.memory
  refine ⟨hmemory ▸ .refl _, by rw [hmemory]; exact Nat.le_add_right _ _, _, hmemory.symm ▸ hgives, ?_⟩
  rw [hmemory]
  intro caller' b' frame' s' index hb' harg hgrows hroom'
  have hslotRoom : s'.memory.size + slotRoom b'.layout
      (.struct (kinds.map Scalar.machineType) false name) ≤ memoryLimit := by
    unfold room at hroom'
    omega
  have hbase' : memoryBase ≤ s'.memory.size := hbase.trans hgrows.size
  have hstop := DataLayout.stop_le_sizeOf layout (kinds.map Scalar.machineType) false name
  refine (executes_alloca hb' hv hbase' hslotRoom).bind fun slot b₂ frame₂ s₂ h₂ halloca => ?_
  obtain ⟨a, hslot, hallots, hgrown⟩ := halloca
  have hinside := hallots.inside
  have hreceives : Receives image (packWords items) kind.bits kind.machineType a
      (.struct (kinds.map Scalar.machineType) false name) (.argument index) slot b₂ frame₂ s₂ :=
    ⟨⟨trivial, h₂.carries harg trivial, rfl⟩, hslot⟩
  have hunpack : Executes image caller' (((packKinds 0 kinds).zipIdx 0).forM
      (unpackField (.argument index) slot kind.machineType)) b₂ frame₂ s₂ fun _ _ _ s' =>
        s₂.memory.Rewrites s'.memory (a + 0)
          ((layout.placeFields false (kinds.map Scalar.machineType) 0 1).2.1 - 0) ∧
        s'.memory.loadFields a (layout.placeFields false (kinds.map Scalar.machineType) 0 1).1
          (kinds.map Scalar.machineType) = .ok items :=
    executes_unpack kinds h₂.standing hkind hkinds hitems (by rw [Nat.zero_add]; exact hfit) hreceives hword
    (by rw [pow_zero, Nat.div_one]) (by omega) rfl rfl (Nat.zero_le _) (hbase'.trans hallots.behind)
    (by omega) (by omega)
  refine Executes.bind hunpack fun _ b₃ frame₃ s₃ h₃ hunpacked => ?_
  obtain ⟨hrewrites, hload⟩ := hunpacked
  refine .pure h₃.standing ⟨a, hslot.after h₃ rfl, ?_, ?_⟩
  · rw [Memory.load, DataLayout.fieldOffsets, hload]
    rfl
  · exact (hallots.rewrites hrewrites (Nat.le_add_right _ _)).of_grows hgrows

end Classes

/-! ### From the fields of an aggregate to its class -/

/-- Packed fields have bits of their own, all of them in a register of the width. -/
structure PacksWithin (bits : Nat) (packed : List (IrType × Nat)) : Prop where
  inside : ∀ entry ∈ packed, entry.2 + entry.1.intBits?.getD 0 ≤ bits
  apart : packed.Pairwise fun first second => first.2 + first.1.intBits?.getD 0 ≤ second.2

theorem packsWithin_packKinds {kinds : List Scalar} (hkinds : ∀ field ∈ kinds, field.isInteger = true)
    (offset : Nat) : PacksWithin (offset + (kinds.map Scalar.bits).sum) (packKinds offset kinds) ∧
      ∀ entry ∈ packKinds offset kinds, offset ≤ entry.2 := by
  induction kinds generalizing offset with
  | nil => exact ⟨⟨by simp [packKinds], .nil⟩, by simp [packKinds]⟩
  | cons kind rest ih =>
    obtain ⟨⟨hinside, hapart⟩, hbehind⟩ :=
      ih (fun field hfield => hkinds field (List.mem_cons_of_mem _ hfield)) (offset + kind.bits)
    have hbits : kind.machineType.intBits?.getD 0 = kind.bits := by
      rw [intBits?_machineType (hkinds kind List.mem_cons_self), Option.getD_some]
    rw [List.map_cons, List.sum_cons, packKinds]
    refine ⟨⟨?_, ?_⟩, ?_⟩
    · intro entry hentry
      obtain rfl | hentry := List.mem_cons.mp hentry
      · rw [hbits]
        omega
      · have := hinside entry hentry
        omega
    · refine List.pairwise_cons.mpr ⟨fun entry hentry => ?_, hapart⟩
      rw [hbits]
      exact hbehind entry hentry
    · intro entry hentry
      obtain rfl | hentry := List.mem_cons.mp hentry
      · exact le_rfl
      · exact (Nat.le_add_right _ _).trans (hbehind entry hentry)

theorem forBits?_eq_some {n : Nat} {kind : Scalar} (h : Scalar.forBits? n = some kind) :
    kind.isInteger = true ∧ n ≤ kind.bits := by
  unfold Scalar.forBits? at h
  split_ifs at h <;> cases h <;> exact ⟨rfl, by assumption⟩

section Fields

variable {s : SymbolTables} {fields : List SourceType} {machines : List IrType}

theorem lowered_scalar {type : SourceType} {kind : Scalar} {machine : IrType}
    (hkind : type.scalar? = some kind) (h : Lowered s type machine) : machine = kind.machineType := by
  have hstrip : type.strip = .scalar kind := by
    unfold SourceType.scalar? at hkind
    split at hkind
    · rename_i k hk
      cases hkind
      exact hk
    · cases hkind
  have hl := h.strip
  rw [hstrip] at hl
  cases hl
  rfl

/-- Scalar fields have the machine types of their kinds, and are packed one behind the other. -/
theorem scalars_of_lowered (hscalars : fields.all SourceType.isScalar = true)
    (h : LoweredAll s fields machines) :
    machines = (fields.filterMap SourceType.scalar?).map Scalar.machineType ∧
      (fields.filterMap SourceType.scalar?).length = fields.length ∧
      ∀ offset, packFrom offset fields = .ok (packKinds offset (fields.filterMap SourceType.scalar?)) := by
  induction fields generalizing machines with
  | nil =>
    cases h
    exact ⟨rfl, rfl, fun _ => rfl⟩
  | cons field rest ih =>
    cases h with
    | cons hfield hrest =>
      rw [List.all_cons, Bool.and_eq_true] at hscalars
      obtain ⟨kind, hkind⟩ := Option.isSome_iff_exists.mp hscalars.1
      obtain ⟨hmachines, hlength, hpack⟩ := ih hscalars.2 hrest
      rw [List.filterMap_cons_some hkind]
      refine ⟨?_, ?_, fun offset => ?_⟩
      · rw [List.map_cons, ← hmachines, lowered_scalar hkind hfield]
      · rw [List.length_cons, List.length_cons, hlength]
      · rw [packFrom, hkind]
        simp only
        rw [hpack (offset + kind.bits)]
        rfl

end Fields

theorem ofFields_cases {name : String} {fields : List SourceType} {cls : PassingClass}
    (h : ofFields name fields = .ok cls) : (∃ field, fields = [field] ∧ cls = .single field) ∨
      fields.length ≤ 4 ∧ fields.all SourceType.isScalar = true ∧
        cls = ofScalars (fields.filterMap SourceType.scalar?) := by
  unfold ofFields at h
  split at h
  · cases h
  · cases h
    exact .inl ⟨_, rfl, rfl⟩
  · split_ifs at h with hlength hscalars
    cases h
    exact .inr ⟨Nat.not_lt.mp hlength, hscalars, rfl⟩

theorem ofScalars_cases (kinds : List Scalar) :
    (∃ kind, ofScalars kinds = .merged kind ∧ (∀ field ∈ kinds, field.isInteger = true) ∧
        Scalar.forBits? (kinds.map Scalar.bits).sum = some kind) ∨
      (∃ kind, ofScalars kinds = .vector kind 2 ∧ kinds = [kind, kind] ∧ kind.isFloat = true) ∨
      ofScalars kinds = .indirect := by
  unfold ofScalars
  split_ifs with hintegers
  · dsimp only
    cases hbits : Scalar.forBits? (kinds.map Scalar.bits).sum with
    | none => exact .inr (.inr rfl)
    | some kind =>
      dsimp only
      split_ifs
      · exact .inl ⟨kind, rfl, by simpa using hintegers, rfl⟩
      · exact .inr (.inr rfl)
  · split
    · rename_i a b
      split_ifs with hpair
      · simp only [Bool.and_eq_true, beq_iff_eq] at hpair
        obtain ⟨hfloat, rfl⟩ := hpair
        exact .inr (.inl ⟨a, rfl, rfl, hfloat⟩)
      · exact .inr (.inr rfl)
    · exact .inr (.inr rfl)

/-- What an aggregate is classified as depends on its fields alone. -/
theorem classify_cases {p : Performer} {c c' : Context} {type : SourceType} {location : Location}
    {cls : PassingClass} {name : String} (hname : type.aggregateName? = some name)
    (h : CompileM.classify type location p c = .ok cls c') :
    ∃ fields, c'.symbols.fieldTypes? name = some fields ∧
      (cls = .indirect ∨ ofFields name fields = .ok cls) := by
  rw [CompileM.classify, hname] at h
  obtain ⟨_, c₁, -, h⟩ := CompileM.bind_eq_ok.mp h
  obtain ⟨c₂, c₃, hget, h⟩ := CompileM.bind_eq_ok.mp h
  cases hget
  cases hfields : c₁.symbols.fieldTypes? name with
  | none =>
    simp only [hfields] at h
    exact absurd h (CompileM.bail_ne_ok _ _)
  | some fields =>
    simp only [hfields] at h
    cases hsize : c₁.sizeOf? type with
    | none =>
      simp only [hsize] at h
      exact absurd h (CompileM.bail_ne_ok _ _)
    | some bytes =>
      simp only [hsize, CompileM.ite_apply] at h
      split_ifs at h
      · cases h
        exact ⟨fields, hfields, .inl rfl⟩
      · cases hclass : ofFields name fields with
        | error problem =>
          rw [hclass] at h
          exact absurd h (CompileM.orBail_error_ne_ok _ _)
        | ok cls' =>
          rw [hclass] at h
          cases h
          exact ⟨fields, hfields, .inr hclass⟩

/-- Whatever class an accepted aggregate has, its values travel there and back; the fields that are packed
in a register have bits of their own in it. -/
theorem travels_of_classify {c c' : Context} {type : SourceType} {location : Location}
    {cls : PassingClass} {name : String} (hname : type.aggregateName? = some name)
    (h : c.classify type location = .ok cls c') {s : SymbolTables}
    (hs : s.fieldTypes? name = c'.symbols.fieldTypes? name) {struct register : IrType}
    (hstruct : s.lower type = .ok struct) (hregister : cls.machineType s type = .ok register) {v : Value}
    (hv : struct.Admits v) :
    ∃ packed, cls.packed s type = .ok packed ∧ (∀ image, Travels image cls struct register packed v) ∧
      ∀ kind, cls = .merged kind → PacksWithin kind.bits packed := by
  obtain ⟨fields, hfields, hclass⟩ := classify_cases hname h
  rw [← hs] at hfields
  obtain ⟨fields', machines, hfields', hall, rfl⟩ := (lowered_of_lower hstruct).of_aggregateName? hname
  obtain rfl : fields = fields' := Option.some.inj (hfields.symm.trans hfields')
  have indirect : cls = .indirect → ∃ packed, cls.packed s type = .ok packed ∧
      (∀ image, Travels image cls (.struct machines false (some name)) register packed v) ∧
      ∀ kind, cls = .merged kind → PacksWithin kind.bits packed := by
    rintro rfl
    obtain rfl : register = .ptr (.struct machines false (some name)) := by
      rw [machineType, hstruct] at hregister
      cases hregister
      rfl
    exact ⟨[], rfl, fun image => travels_indirect hv, fun kind hkind => by cases hkind⟩
  obtain hindirect | hclass := hclass
  · exact indirect hindirect
  obtain ⟨field, rfl, rfl⟩ | ⟨hlength, hscalars, hcls⟩ := ofFields_cases hclass
  · -- a single field
    cases hall with
    | cons hfield hrest =>
      cases hrest
      have halike := alike_of_lowered hfield (lowered_of_lower hregister)
      exact ⟨[], rfl, fun image => travels_single halike hv, fun kind hkind => by cases hkind⟩
  · obtain ⟨hmachines, hcount, hpack⟩ := scalars_of_lowered hscalars hall
    subst hmachines
    obtain ⟨kind, hmerged, hintegers, hbits⟩ | ⟨kind, hvector, hkinds, hfloat⟩ | hindirect :=
      ofScalars_cases (fields.filterMap SourceType.scalar?)
    · rw [hmerged] at hcls
      subst hcls
      obtain ⟨hkind, hfit⟩ := forBits?_eq_some hbits
      cases hregister
      obtain ⟨hwithin, -⟩ := packsWithin_packKinds hintegers 0
      refine ⟨packKinds 0 (fields.filterMap SourceType.scalar?), ?_, fun image => ?_, fun kind' hkind' => ?_⟩
      · rw [packed, packedFields, hname]
        simp only [hfields, hpack]
      · exact travels_merged hkind hintegers hfit (hcount.trans_le hlength) hv
      · cases hkind'
        exact ⟨fun entry hentry => (hwithin.inside entry hentry).trans (by omega), hwithin.apart⟩
    · rw [hvector] at hcls
      subst hcls
      cases hregister
      rw [hkinds] at hv ⊢
      exact ⟨[], rfl, fun image => travels_vector (pairs_of_admits hfloat hv) hv rfl,
        fun kind' hkind' => by cases hkind'⟩
    · exact indirect (hcls.trans hindirect)

/-- The aggregate `Key` of a number and a flag. -/
def keys : SymbolTables where
  aggregates := ⟨[
    ("Key", {
      decl := ⟨0⟩, name := "Key", base := none, isInstance := false, space := [], subst := {}
      fields := [⟨"code", .scalar .short, 0, none⟩, ⟨"held", .scalar .bool, 1, none⟩] })]⟩

theorem travels_of_keys :
    Travels ⟨{}, []⟩ (.merged .int) (.struct [.i16, .i1] false (some "Key")) .i32 [(.i16, 0), (.i1, 16)]
      (.aggregate [.int 65534 16, .int 1 1]) := by
  let c : Context := { Context.new default {} with symbols := keys }
  have hclass : c.classify (.aggregate "Key" []) default = .ok (.merged .int) c := by
    rfl
  have hname : (SourceType.aggregate "Key" []).aggregateName? = some "Key" := rfl
  have hstruct : keys.lower (.aggregate "Key" []) = .ok (.struct [.i16, .i1] false (some "Key")) := rfl
  have hregister : (PassingClass.merged .int).machineType keys (.aggregate "Key" []) = .ok .i32 := rfl
  have hv : (IrType.struct [.i16, .i1] false (some "Key")).Admits (.aggregate [.int 65534 16, .int 1 1]) :=
    ⟨_, rfl, ⟨65534, rfl, by decide⟩, ⟨1, rfl, by decide⟩, trivial⟩
  obtain ⟨packed, hpacked, htravels, -⟩ := travels_of_classify hname hclass rfl hstruct hregister hv
  cases hpacked
  exact htravels _

end PassingClass
end UnitCompiler
