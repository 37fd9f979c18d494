import UnitCompiler.Proofs.Compile.StartingValues
import UnitCompiler.Proofs.Machine.Allocation

/-!
# Slots of aggregates

A new slot holds a zero, behind all memory there was.  What is stored over the zero leaves that memory alone,
and where it is the defaults of the fields, the slot holds the default value.
-/

namespace UnitCompiler
open Machine

/-! ### Slots in memory -/

namespace Machine

/-- The faults of a slot: those of the limits, and a lack of addresses if the type takes nearly all of them. -/
def SlotFault (align : Nat) (type : IrType) (e : Fault) : Prop :=
  e.isLimit = true ∨ e = .addressOverflow ∧ maxU64 < memoryLimit + align + layout.sizeOf type + 1

/-- A slot is made behind all memory, holding a zero, or there is not enough memory for it. -/
theorem perform_alloca_cases (image : Image) (caller : Caller) (frame : Frame) (result : IrType) {type : IrType}
    (hadmits : type.Admits (.zero type)) (align : Nat) {s : State} (hbase : memoryBase ≤ s.memory.size) :
    (∃ e s', perform image caller frame result (.alloca type align) s = .error e s' ∧
        SlotFault align type e) ∨
      ∃ a m, perform image caller frame result (.alloca type align) s =
          .ok (.ptr a) { s with memory := m } ∧ Allots s.memory m a (layout.sizeOf type) ∧
        m.size ≤ memoryLimit ∧ m.load a type = .ok (.zero type) := by
  have hlimit : memoryLimit < maxU64 := by decide
  simp only [perform]
  rw [bind_apply, onMemory]
  rcases allocate_cases (layout.sizeOf type) align s.memory with
    herror | ⟨herror, hover⟩ | ⟨a, m, hok, -, -, hinside⟩
  · rw [herror]
    exact Or.inl ⟨_, _, rfl, Or.inl rfl⟩
  · rw [herror]
    refine Or.inl ⟨_, _, rfl, Or.inr ⟨rfl, ?_⟩⟩
    have hstart := alignUp_le s.memory.size align
    have hsize : s.memory.size ≤ memoryLimit := s.memory.size_le
    omega
  · have happends := Memory.appends_of_allocate hok
    have hlast := happends.limit
    obtain ⟨m', hstore, hrewrites, hload⟩ := Memory.keeps type hadmits m (by omega)
      ⟨hbase.trans happends.behind, hinside⟩
    have hallots : Allots s.memory m a (layout.sizeOf type) := ⟨happends.grows, happends.behind, hinside⟩
    refine Or.inr ⟨a, m', ?_, hallots.rewrites hrewrites (le_refl _), hrewrites.size.trans_le hlast, hload⟩
    rw [hok]
    simp only
    rw [bind_apply, onMemory, hstore]
    rfl

/-- A configuration behind code that has made a slot with a zero at `a`. -/
structure Zeroed (A : Activation) (b b' : FunctionBuilder) (slot : Operand) (type : IrType) (frame : Frame)
    (m : Memory) (a : Nat) (C : Config) : Prop where
  point : C.point = b'.here
  frame : Agrees b.nextValue b'.nextValue frame C.frame
  allots : Allots m C.state.memory a (layout.sizeOf type)
  limit : C.state.memory.size ≤ memoryLimit
  slot : Carries A.image C.frame slot (.ptr a) (.ptr type)
  zero : C.state.memory.load a type = .ok (.zero type)

variable {A : Activation} {b b' : FunctionBuilder} {frame : Frame} {s : State} {slot : Operand} {type : IrType}

theorem Zeroed.address {m : Memory} {a : Nat} {C : Config} (h : Zeroed A b b' slot type frame m a C) :
    a + layout.sizeOf type ≤ maxU64 := by
  have hmax : memoryLimit < maxU64 := by decide
  have := h.allots.inside
  have := h.limit
  omega

theorem leads_newSlot (hb : b.Sound) (hadmits : type.Admits (.zero type)) {align : Nat}
    (hA : A.Has (b.place (.alloca type align) (some (.ptr type)))) (hbase : memoryBase ≤ s.memory.size) :
    A.Leads 0 ⟨b.here, frame, s⟩
      (fun C => ∃ a, Zeroed A b (b.place (.alloca type align) (some (.ptr type))) (.register b.nextValue) type
        frame s.memory a C)
      (SlotFault align type) := by
  have hcases := perform_alloca_cases A.image A.caller frame (.ptr type) hadmits align
    (s := { s with steps := s.steps + 1 }) hbase
  refine Activation.leads_step (hA.getElem? hb) (fun _ => Or.inl) ?_ ?_
  · intro v s' h
    rcases hcases with ⟨e, s₁, herror, -⟩ | ⟨a, m, hok, hallots, hlimit, hload⟩
    · cases herror.symm.trans h
    · cases hok.symm.trans h
      let i : Instruction := ⟨b.nextValue, .alloca type align, some (.ptr type)⟩
      exact ⟨a, (FunctionBuilder.here_place hb _ _).symm, agrees_keep frame i _, hallots, hlimit,
        carries_keep (i := i) _ _ rfl rfl _, hload⟩
  · intro e s' h
    rcases hcases with ⟨e', s₁, herror, hfault⟩ | ⟨a, m, hok, -⟩
    · cases herror.symm.trans h
      exact hfault
    · cases hok.symm.trans h

/-- A zero that is stored once more. -/
theorem Zeroed.leads_zero {m : Memory} {a : Nat} {C : Config} (h : Zeroed A b b' slot type frame m a C)
    (hadmits : type.Admits (.zero type)) (hb : b'.Sound)
    (hA : A.Has (b'.place (.store (.constant (.zero type)) slot none false) none))
    (hbase : memoryBase ≤ m.size) :
    A.Leads 0 C
      (Zeroed A b (b'.place (.store (.constant (.zero type)) slot none false) none) slot type frame m a)
      (·.isLimit = true) := by
  have hmax : memoryLimit < maxU64 := by decide
  have hlimit := h.limit
  have hinside := h.allots.inside
  have hvalue : Carries A.image C.frame (.constant (.zero type)) (.zero type) type := ⟨rfl, rfl⟩
  obtain ⟨m', hrewrites, hload, hperform⟩ := perform_keep A.caller .void hvalue hadmits h.slot.eval
    (m := C.state.memory) (by omega) ⟨hbase.trans h.allots.behind, hinside⟩
  obtain ⟨point, frame', state⟩ := C
  obtain rfl : point = b'.here := h.point
  have hrun := hperform { state with steps := state.steps + 1 } rfl
  refine Activation.leads_step (hA.getElem? hb) (fun _ h => h) ?_ ?_
  · intro v s' hstep
    cases hrun.symm.trans hstep
    exact ⟨(FunctionBuilder.here_place hb _ _).symm, h.frame.mono (le_refl _) (Nat.le_succ _),
      h.allots.rewrites hrewrites (le_refl _), hrewrites.size.trans_le hlimit, h.slot, hload⟩
  · intro e s' hstep
    cases hrun.symm.trans hstep

/-- The struct in a new slot has the default value when the defaults have been stored over its zeros. -/
theorem Zeroed.load_items {m : Memory} {a : Nat} {C C' : Config} (h : Zeroed A b b' slot type frame m a C)
    {symbols : SymbolTables} {placed : List PlacedField} {ds : List StoredDefault} {xs : List IntValue}
    {items : List Value} (hlaid : symbols.LaidOut type placed)
    (hpieces : placed.map (fun f => (f.offset, f.machine)) = type.pieces)
    (hinitial : symbols.Initial placed ds xs items)
    (hsets : Sets C.state.memory C'.state.memory a ds xs) :
    C'.state.memory.load a type = .ok (.aggregate items) := by
  obtain ⟨fields, isPacked, name, rfl⟩ := hlaid.shape
  have hinside (f : PlacedField) (hf : f ∈ placed) :
      a + f.offset + layout.sizeOf f.machine ≤ C.state.memory.size := by
    have := hlaid.inside hf
    have := h.allots.inside
    omega
  refine SymbolTables.load_of_items rfl hpieces (hinitial _ C.state.memory _ a hlaid ?_)
  refine ⟨fun f hf => ?_, hinside, hsets.size, fun f hf i hle hlt hout => ?_, hsets.cells⟩
  · exact Memory.load_zero_piece h.zero (List.mem_of_getElem? (hlaid.piece f hf))
  · exact hsets.bytes i (hlt.trans_le (hinside f hf)) hout

/-- What is stored behind a memory leaves it alone. -/
theorem Sets.grows {m m' m'' : Memory} {a : Nat} {ds : List StoredDefault} {xs : List IntValue}
    (h : Sets m' m'' a ds xs) (hm : Grows m m') (ha : m.size ≤ a) : Grows m m'' where
  size := hm.size.trans h.size
  bytes := by
    intro i hi
    rw [h.bytes i (hi.trans_le hm.size) fun d _ => Or.inl (by omega)]
    exact hm.bytes i hi

/-- A number is computed, and then the address of the field in which it is stored. -/
theorem StoresDefaults.of_value {b₁ b₂ : FunctionBuilder} {a : Nat} {d : StoredDefault} {o : Operand}
    {v : Option IntValue} (element : IrType) (hvalue : Computes A b b₁ o d.kind frame s v)
    (hpoint : ∀ x C, Delivers A b b₁ o d.kind frame s.memory x C → A.Leads 0 ⟨b₁.here, C.frame, C.state⟩
      (Points A b₁ b₂ C.frame C.state.memory (a + d.offset) element) (·.isLimit = true))
    (ho : o.Below b₁.nextValue) (hb : b.nextValue ≤ b₁.nextValue) (hb' : b₁.nextValue ≤ b₂.nextValue)
    (hb₂ : b₂.Sound)
    (hA : A.Has (b₂.place (.store o (.register b₁.nextValue) none false) none))
    (haccess : memoryBase ≤ a + d.offset ∧ a + d.offset + d.kind.bytes ≤ s.memory.size) :
    StoresDefaults A b (b₂.place (.store o (.register b₁.nextValue) none false) none) frame s a [d]
      (v.map ([·])) := by
  cases v with
  | none => exact hvalue
  | some x =>
    refine hvalue.andThen fun C hC => ?_
    have hrun := hpoint x C hC
    rw [← hC.point] at hrun
    refine hrun.andThen fun C' hC' => ?_
    have hgrows : Grows s.memory C'.state.memory := hC'.memory ▸ hC.memory
    have hroom : memoryBase ≤ a + d.offset ∧ a + d.offset + x.kind.bytes ≤ C'.state.memory.size := by
      rw [hC.kind]
      exact ⟨haccess.1, haccess.2.trans hgrows.size⟩
    have hstored := leads_store hb₂ hA (hC'.frame.denotes hC.value ho) hC'.address.eval hroom
    rw [← hC'.point] at hstored
    refine hstored.imp fun C'' hC'' => ⟨hC''.point, ?_, .of_stores hgrows hC'' hC.kind⟩
    rw [hC''.frame]
    exact (hC.frame.trans hC'.frame hb hb').mono (le_refl _) (Nat.le_succ _)

/-- A configuration in which the code from `b` to `b'` has made a slot with a value. -/
structure Furnished (A : Activation) (b b' : FunctionBuilder) (slot : Operand) (type : IrType) (frame : Frame)
    (m : Memory) (v : Value) (C : Config) : Prop where
  point : C.point = b'.here
  frame : Agrees b.nextValue b'.nextValue frame C.frame
  memory : Grows m C.state.memory
  slot : ∃ a, m.size ≤ a ∧ Carries A.image C.frame slot (.ptr a) (.ptr type) ∧
    C.state.memory.load a type = .ok v

/-- A configuration in which the code from `b` to `b'` has given a value. -/
structure Produced (A : Activation) (b b' : FunctionBuilder) (o : Operand) (type : IrType) (frame : Frame)
    (m : Memory) (v : Value) (C : Config) : Prop where
  point : C.point = b'.here
  frame : Agrees b.nextValue b'.nextValue frame C.frame
  memory : Grows m C.state.memory
  value : Carries A.image C.frame o v type

/-- The value in a slot is loaded from there. -/
theorem Furnished.leads_load {m : Memory} {v : Value} {C : Config}
    (h : Furnished A b b' slot type frame m v C) (hb : b'.Sound) (hle : b.nextValue ≤ b'.nextValue)
    (hvoid : type.isVoid = false)
    (hA : A.Has (b'.place (.load slot none false) (some type))) :
    A.Leads 0 C
      (Produced A b (b'.place (.load slot none false) (some type)) (.register b'.nextValue) type frame m v)
      (·.isLimit = true) := by
  obtain ⟨point, frame', state⟩ := C
  obtain rfl : point = b'.here := h.point
  obtain ⟨a, -, hslot, hload⟩ := h.slot
  have hrun := perform_read A.caller (s := { state with steps := state.steps + 1 }) hslot.eval hload
  refine Activation.leads_step (hA.getElem? hb) (fun _ h => h) ?_ ?_
  · intro w s' hstep
    cases hrun.symm.trans hstep
    let i : Instruction := ⟨b'.nextValue, .load slot none false, some type⟩
    exact ⟨(FunctionBuilder.here_place hb _ _).symm, h.frame.trans (agrees_keep frame' i v) hle (Nat.le_succ _),
      h.memory, carries_keep (i := i) _ _ rfl hvoid v⟩
  · intro e s' hstep
    cases hrun.symm.trans hstep

end Machine

/-! ### Emission of slots -/

/-- An action emitted code from `b` to `b'` for a slot that holds a zero. -/
structure EmitsZero (c c' : Context) (b b' : FunctionBuilder) (slot : Operand) (type : IrType) : Prop where
  follows : Follows c c' b b'
  below : slot.Below b'.nextValue
  leads : ∀ (A : Activation) (frame : Machine.Frame) (s : State), A.Has b' → memoryBase ≤ s.memory.size →
    A.Leads 0 ⟨b.here, frame, s⟩ (fun C => ∃ a, Zeroed A b b' slot type frame s.memory a C)
      (SlotFault (b.layout.alignOf type) type)

/-- An action emitted code from `b` to `b'` for a slot that holds a value. -/
structure Furnishes (c c' : Context) (b b' : FunctionBuilder) (slot : Operand) (type : IrType)
    (Fit : Activation → Machine.Frame → State → Value → Prop) : Prop where
  follows : Follows c c' b b'
  below : slot.Below b'.nextValue
  leads : ∀ A frame s v, A.Has b' → Fit A frame s v →
    A.Leads 0 ⟨b.here, frame, s⟩ (Furnished A b b' slot type frame s.memory v)
      (SlotFault (b.layout.alignOf type) type)

/-- An action emitted code from `b` to `b'` for a value. -/
structure Produces (c c' : Context) (b b' : FunctionBuilder) (o : Operand) (type : IrType)
    (Fit : Activation → Machine.Frame → State → Value → Prop) : Prop where
  follows : Follows c c' b b'
  below : o.Below b'.nextValue
  leads : ∀ A frame s v, A.Has b' → Fit A frame s v →
    A.Leads 0 ⟨b.here, frame, s⟩ (Produced A b b' o type frame s.memory v)
      (SlotFault (b.layout.alignOf type) type)

section Imp

variable {c c' : Context} {b b' : FunctionBuilder} {o : Operand} {type : IrType}
  {Fit Fit' : Activation → Machine.Frame → State → Value → Prop}

theorem Furnishes.of_imp (h : Furnishes c c' b b' o type Fit)
    (hfit : ∀ A frame s v, Fit' A frame s v → Fit A frame s v) : Furnishes c c' b b' o type Fit' :=
  ⟨h.follows, h.below, fun A frame s v hA hv => h.leads A frame s v hA (hfit A frame s v hv)⟩

theorem Produces.of_imp (h : Produces c c' b b' o type Fit)
    (hfit : ∀ A frame s v, Fit' A frame s v → Fit A frame s v) : Produces c c' b b' o type Fit' :=
  ⟨h.follows, h.below, fun A frame s v hA hv => h.leads A frame s v hA (hfit A frame s v hv)⟩

end Imp

/-- Code that stores defaults over the zeros of a slot. -/
theorem EmitsZero.furnishes {c c₁ c' : Context} {b b₁ b' : FunctionBuilder} {slot : Operand} {type : IrType}
    {s : SymbolTables} {placed : List PlacedField} {Fit : Activation → Machine.Frame → State → Value → Prop}
    (h : EmitsZero c c₁ b b₁ slot type) (ds : List StoredDefault) (hfollows : Follows c₁ c' b₁ b')
    (hlaid : s.LaidOut type placed)
    (hpieces : placed.map (fun f => (f.offset, f.machine)) = type.pieces)
    (hfit : ∀ A frame st v, A.Has b' → Fit A frame st v → memoryBase ≤ st.memory.size ∧
      ∃ xs items, v = .aggregate items ∧ s.Initial placed ds xs items ∧
        ∀ a C, Zeroed A b b₁ slot type frame st.memory a C →
          StoresDefaults A b₁ b' C.frame C.state a ds (some xs)) :
    Furnishes c c' b b' slot type Fit := by
  have hle := hfollows.continues.value
  refine ⟨h.follows.trans hfollows, h.below.mono hle, fun A frame st v hA hv => ?_⟩
  obtain ⟨hbase, xs, items, rfl, hinitial, hstores⟩ := hfit A frame st v hA hv
  refine (h.leads A frame st (hA.of_continues hfollows.continues) hbase).andThen ?_
  rintro C ⟨a, hzeroed⟩
  -- the slot lies behind all memory, so that nothing before it is written
  have hrun := hstores a C hzeroed
  rw [StoresDefaults, ← hzeroed.point] at hrun
  refine hrun.mono (le_refl _) (fun C' hC' => ⟨hC'.point, ?_, ?_, a, hzeroed.allots.behind, ?_, ?_⟩)
    fun _ => Or.inl
  · exact hzeroed.frame.trans hC'.frame h.follows.continues.value hle
  · exact hC'.memory.grows hzeroed.allots.grows hzeroed.allots.behind
  · exact hC'.frame.carries hzeroed.slot h.below
  · exact hzeroed.load_items hlaid hpieces hinitial hC'.memory

namespace CompileM

variable {p : Performer} {c c' : Context} {b b' : FunctionBuilder} {machine : IrType} {location : Location}
  {slot : Operand}

/-- One more slot. -/
theorem build_alloca (hr : Ready c b) (machine : IrType) :
    ∃ c', build (FunctionBuilder.alloca machine) p c = .ok (.register b.nextValue) c' ∧
      Follows c c' b (b.place (.alloca machine (b.layout.alignOf machine)) (some (.ptr machine))) := by
  obtain ⟨F, hF, rfl⟩ := hr.function
  have hrun := build_apply (p := p) hF (FunctionBuilder.alloca machine)
  rw [FunctionBuilder.alloca_run hr.isOpen] at hrun
  refine ⟨_, hrun, ⟨F, F.scope, hF, rfl, rfl, rfl⟩, ?_, ?_⟩
  · exact (FunctionBuilder.Continues.refl hr.sound (List.mem_singleton_self _)).place hr.isOpen _ _
  · exact (FunctionBuilder.open_place hr.sound _ _).mpr hr.isOpen

theorem newSlot_spec (hr : Ready c b) (hadmits : machine.Admits (.zero machine)) : ∃ c' b',
    build (FunctionBuilder.alloca machine) p c = .ok (.register b.nextValue) c' ∧
      EmitsZero c c' b b' (.register b.nextValue) machine := by
  obtain ⟨c', hrun, hfollows⟩ := build_alloca (p := p) hr machine
  refine ⟨c', _, hrun, hfollows, Nat.lt_succ_self _, fun A frame s hA hbase => ?_⟩
  exact leads_newSlot hr.sound hadmits hA hbase

/-- A zero that is stored into a new slot. -/
theorem storeZero_spec {c₁ : Context} {b₁ : FunctionBuilder} (h : EmitsZero c c₁ b b₁ slot machine)
    (hadmits : machine.Admits (.zero machine)) : ∃ c' b',
    build (FunctionBuilder.store (.constant (.zero machine)) slot) p c₁ = .ok () c' ∧
      EmitsZero c c' b b' slot machine := by
  obtain ⟨c', hrun, hfollows⟩ := build_store (p := p) h.follows.ready (.constant (.zero machine)) slot
  refine ⟨c', _, hrun, h.follows.trans hfollows, h.below.mono hfollows.continues.value,
    fun A frame s hA hbase => ?_⟩
  refine (h.leads A frame s (hA.of_continues hfollows.continues) hbase).andThen ?_
  rintro C ⟨a, hzeroed⟩
  exact (hzeroed.leads_zero hadmits h.follows.ready.sound hA hbase).mono (le_refl _)
    (fun C' hC' => ⟨a, hC'⟩) fun _ => Or.inl

/-- The value in a slot that is read. -/
theorem load_spec {c₁ : Context} {b₁ : FunctionBuilder}
    {Fit : Activation → Machine.Frame → State → Value → Prop} (h : Furnishes c c₁ b b₁ slot machine Fit)
    (hvoid : machine.isVoid = false) : ∃ o c' b',
    build (FunctionBuilder.load slot machine) p c₁ = .ok o c' ∧ Produces c c' b b' o machine Fit := by
  obtain ⟨c', hrun, hfollows⟩ := build_push (p := p) h.follows.ready (.load slot none false) hvoid
  refine ⟨_, c', _, hrun, h.follows.trans hfollows, Nat.lt_succ_self _, fun A frame s v hA hv => ?_⟩
  refine (h.leads A frame s v (hA.of_continues hfollows.continues) hv).andThen fun C hC => ?_
  exact (hC.leads_load h.follows.ready.sound h.follows.continues.value hvoid hA).mono (le_refl _)
    (fun _ => id) fun _ => Or.inl

end CompileM

end UnitCompiler
