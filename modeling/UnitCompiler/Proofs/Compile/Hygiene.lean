import UnitCompiler.Proofs.Compile.Assignments
import UnitCompiler.Proofs.Compile.Defaults
import UnitCompiler.Proofs.Compile.Names
import UnitCompiler.Proofs.Compile.Progress

/-!
# Defaults mean the same in every function

The defaults of an aggregate are emitted anew wherever a value of it is made.  Where no variable of the
function has a name that they mention, and the names lead to the same variables of the unit, the code is
always there and stores the same numbers, whatever else the function has.
-/

namespace UnitCompiler
open Machine

/-- The builder behind code for the address of a field. -/
def FunctionBuilder.addressField (b : FunctionBuilder) (slot : Operand) (index : Nat) (element : IrType) :
    FunctionBuilder :=
  b.place (.elementPtr slot [constI32 0, constI32 index] true) (some (.ptr element))

/-! ### Defaults in memory -/

namespace Machine

/-- Memory in which the defaults of a value at `a` have been stored.  No other byte that was there is
another one. -/
structure Sets (m m' : Memory) (a : Nat) (ds : List StoredDefault) (xs : List IntValue) : Prop where
  size : m.size ≤ m'.size
  bytes : ∀ i < m.size, (∀ d ∈ ds, i < a + d.offset ∨ a + d.offset + d.kind.bytes ≤ i) →
    m'.bytes[i]? = m.bytes[i]?
  cells : List.Forall₂ (fun d x => Holds m' (a + d.offset) x ∧ x.kind = d.kind) ds xs

namespace Sets

variable {m m' m'' : Memory} {a : Nat} {ds ds' : List StoredDefault} {xs xs' : List IntValue}

theorem of_grows (h : Grows m m') (a : Nat) : Sets m m' a [] [] :=
  ⟨h.size, fun i hi _ => h.bytes i hi, .nil⟩

/-- A number apart from the defaults stays. -/
theorem holds (h : Sets m m' a ds xs) {address : Nat} {x : IntValue} (hx : Holds m address x)
    (hapart : ∀ d ∈ ds, Apart address x.kind.bytes (a + d.offset) d.kind.bytes) :
    Holds m' address x := by
  have haccess := hx.access
  refine hx.of_sameBytes (haccess.2.trans h.size) fun i hle hlt => h.bytes i (by omega) fun d hd => ?_
  rcases hapart d hd with hbefore | hbehind
  · exact Or.inl (by omega)
  · exact Or.inr (by omega)

/-- Further defaults behind those that are stored. -/
theorem append (h : Sets m m' a ds xs) (h' : Sets m' m'' a ds' xs')
    (hapart : ∀ d ∈ ds, ∀ d' ∈ ds', d.offset + d.kind.bytes ≤ d'.offset) :
    Sets m m'' a (ds ++ ds') (xs ++ xs') where
  size := h.size.trans h'.size
  bytes := by
    intro i hi hout
    rw [h'.bytes i (hi.trans_le h.size) fun d hd => hout d (List.mem_append_right _ hd)]
    exact h.bytes i hi fun d hd => hout d (List.mem_append_left _ hd)
  cells := by
    refine List.rel_append (List.forall₂_iff_get.mpr ⟨h.cells.length_eq, fun i hi hi' => ?_⟩) h'.cells
    obtain ⟨hx, hkind⟩ := (List.forall₂_iff_get.mp h.cells).2 i hi hi'
    refine ⟨h'.holds hx fun d' hd' => Or.inl ?_, hkind⟩
    have := hapart _ (List.get_mem ds ⟨i, hi⟩) d' hd'
    rw [hkind]
    omega

/-- A number that is stored behind memory that was only added to. -/
theorem of_stores {b : FunctionBuilder} {frame : Frame} {d : StoredDefault} {x : IntValue} {C : Config}
    (hm : Grows m m') (h : Stores b frame m' (a + d.offset) x C) (hkind : x.kind = d.kind) :
    Sets m C.state.memory a [d] [x] where
  size := hm.size.trans_eq h.size.symm
  bytes := by
    intro i hi hout
    rw [h.bytes i (hkind ▸ hout d List.mem_cons_self)]
    exact hm.bytes i hi
  cells := .cons ⟨h.cell, hkind⟩ .nil

/-- The defaults of a field are defaults of the value that has the field. -/
theorem of_field {n : Nat} (h : Sets m m' (a + n) ds xs) : Sets m m' a (ds.map (.behind n)) xs where
  size := h.size
  bytes := by
    intro i hi hout
    refine h.bytes i hi fun d hd => ?_
    have := hout _ (List.mem_map_of_mem hd)
    simp only [StoredDefault.behind] at this
    omega
  cells := by
    refine List.forall₂_map_left_iff.mpr (h.cells.imp fun d x hx => ?_)
    simp only [StoredDefault.behind, ← Nat.add_assoc]
    exact hx

end Sets

/-- A configuration behind code that stores the defaults of the value at `a`. -/
structure Settled (A : Activation) (b b' : FunctionBuilder) (frame : Frame) (m : Memory) (a : Nat)
    (ds : List StoredDefault) (xs : List IntValue) (C : Config) : Prop where
  point : C.point = b'.here
  frame : Agrees b.nextValue b'.nextValue frame C.frame
  memory : Sets m C.state.memory a ds xs

/-- The code from `b` to `b'` stores the defaults of the value at `a`, or divides by zero when there is no
number for one of them. -/
def StoresDefaults (A : Activation) (b b' : FunctionBuilder) (frame : Frame) (s : State) (a : Nat)
    (ds : List StoredDefault) : Option (List IntValue) → Prop
  | some xs => A.Leads 0 ⟨b.here, frame, s⟩ (Settled A b b' frame s.memory a ds xs) (·.isLimit = true)
  | none =>
    A.Leads 0 ⟨b.here, frame, s⟩ (fun _ => False) fun e => e.isLimit = true ∨ e = .divisionByZero

namespace StoresDefaults

variable {A : Activation} {b b' b'' : FunctionBuilder} {frame : Frame} {s : State} {a : Nat}
  {ds ds' : List StoredDefault} {v v' : Option (List IntValue)}

theorem nil : StoresDefaults A b b frame s a [] (some []) :=
  Activation.Leads.refl ⟨rfl, .refl _ _ _, .of_grows (.refl _) _⟩

theorem append (h : StoresDefaults A b b' frame s a ds v) (hb : b.nextValue ≤ b'.nextValue)
    (hb' : b'.nextValue ≤ b''.nextValue)
    (hapart : ∀ d ∈ ds, ∀ d' ∈ ds', d.offset + d.kind.bytes ≤ d'.offset)
    (hnext : ∀ xs C, Settled A b b' frame s.memory a ds xs C →
      StoresDefaults A b' b'' C.frame C.state a ds' v') :
    StoresDefaults A b b'' frame s a (ds ++ ds') (v.bind fun xs => v'.map (xs ++ ·)) := by
  cases v with
  | none => exact h
  | some xs =>
    cases v' with
    | none =>
      refine (h.mono (le_refl _) (fun _ => id) fun e => Or.inl).andThen fun C hC => ?_
      have hrun := hnext xs C hC
      rw [StoresDefaults, ← hC.point] at hrun
      exact hrun
    | some xs' =>
      refine h.andThen fun C hC => ?_
      have hrun := hnext xs C hC
      rw [StoresDefaults, ← hC.point] at hrun
      refine hrun.imp fun C' hC' => ⟨hC'.point, hC.frame.trans hC'.frame hb hb', ?_⟩
      exact hC.memory.append hC'.memory hapart

end StoresDefaults

/-- An address that has just been computed. -/
structure Points (A : Activation) (b b' : FunctionBuilder) (frame : Frame) (m : Memory) (a : Nat)
    (type : IrType) (C : Config) : Prop where
  point : C.point = b'.here
  frame : Agrees b.nextValue b'.nextValue frame C.frame
  memory : C.state.memory = m
  address : Carries A.image C.frame (.register b.nextValue) (.ptr a) (.ptr type)

/-- The code for the address of a field. -/
theorem leads_fieldPtr {A : Activation} {b : FunctionBuilder} {frame : Frame} {s : State}
    {slot : Operand} {a offset index : Nat} {struct part : IrType} (element : IrType) (hb : b.Sound)
    (hA : A.Has (b.addressField slot index element))
    (hslot : Carries A.image frame slot (.ptr a) (.ptr struct))
    (hshape : ∃ fields isPacked name, struct = .struct fields isPacked name) (hindex : index < 2 ^ 31)
    (hpiece : struct.pieces[index]? = some (offset, part)) (ha : a + offset ≤ maxU64) :
    A.Leads 0 ⟨b.here, frame, s⟩
      (Points A b (b.addressField slot index element) frame s.memory (a + offset) element)
      (·.isLimit = true) := by
  obtain ⟨fields, isPacked, name, rfl⟩ := hshape
  obtain ⟨hoffset, hfield⟩ := List.getElem?_zip_eq_some.mp hpiece
  have hperform := perform_fieldAddress A.caller (.ptr element) (s := { s with steps := s.steps + 1 })
    hslot hindex hoffset hfield ha
  refine Activation.leads_step (hA.getElem? hb) (fun _ => id) ?_ ?_
  · intro v s' h
    cases hperform.symm.trans h
    let i : Instruction :=
      ⟨b.nextValue, .elementPtr slot [constI32 0, constI32 index] true, some (.ptr element)⟩
    exact ⟨(FunctionBuilder.here_place hb _ _).symm, agrees_keep frame i (.ptr (a + offset)), rfl,
      carries_keep (i := i) _ _ rfl rfl _⟩
  · intro e s' h
    cases hperform.symm.trans h

namespace StoresDefaults

variable {A : Activation} {b b₁ b₂ : FunctionBuilder} {frame : Frame} {s : State} {a : Nat}
  {element : IrType}

/-- A number that is computed behind the address of its field and stored there. -/
theorem of_computes {d : StoredDefault} {o : Operand} {v : Option IntValue}
    (hpoint : A.Leads 0 ⟨b.here, frame, s⟩ (Points A b b₁ frame s.memory (a + d.offset) element)
      (·.isLimit = true))
    (hvalue : ∀ C, Points A b b₁ frame s.memory (a + d.offset) element C →
      Computes A b₁ b₂ o d.kind C.frame C.state v)
    (hb : b.nextValue < b₁.nextValue) (hb' : b₁.nextValue ≤ b₂.nextValue) (hb₂ : b₂.Sound)
    (hA : A.Has (b₂.place (.store o (.register b.nextValue) none false) none))
    (haccess : memoryBase ≤ a + d.offset ∧ a + d.offset + d.kind.bytes ≤ s.memory.size) :
    StoresDefaults A b (b₂.place (.store o (.register b.nextValue) none false) none) frame s a [d]
      (v.map ([·])) := by
  cases v with
  | none =>
    refine (hpoint.mono (le_refl _) (fun _ => id) fun e => Or.inl).andThen fun C hC => ?_
    have hrun := hvalue C hC
    rw [Computes, ← hC.point] at hrun
    exact hrun
  | some x =>
    refine hpoint.andThen fun C hC => ?_
    have hrun := hvalue C hC
    rw [Computes, ← hC.point] at hrun
    refine hrun.andThen fun C' hC' => ?_
    have hgrows : Grows s.memory C'.state.memory := hC.memory ▸ hC'.memory
    have hslot := (hC'.frame.carries hC.address hb).eval
    have hroom : memoryBase ≤ a + d.offset ∧ a + d.offset + x.kind.bytes ≤ C'.state.memory.size := by
      rw [hC'.kind]
      exact ⟨haccess.1, haccess.2.trans hgrows.size⟩
    have hstored := leads_store hb₂ hA hC'.value hslot hroom
    rw [← hC'.point] at hstored
    refine hstored.imp fun C'' hC'' => ⟨hC''.point, ?_, .of_stores hgrows hC'' hC'.kind⟩
    rw [hC''.frame]
    exact (hC.frame.trans hC'.frame hb.le hb').mono (le_refl _) (Nat.le_succ _)

/-- The defaults of the aggregate in a field are stored behind the address of the field. -/
theorem of_field {n : Nat} {ds : List StoredDefault} {v : Option (List IntValue)}
    (hpoint : A.Leads 0 ⟨b.here, frame, s⟩ (Points A b b₁ frame s.memory (a + n) element)
      (·.isLimit = true))
    (hstores : ∀ C, Points A b b₁ frame s.memory (a + n) element C →
      StoresDefaults A b₁ b₂ C.frame C.state (a + n) ds v)
    (hb : b.nextValue ≤ b₁.nextValue) (hb' : b₁.nextValue ≤ b₂.nextValue) :
    StoresDefaults A b b₂ frame s a (ds.map (.behind n)) v := by
  cases v with
  | none =>
    refine (hpoint.mono (le_refl _) (fun _ => id) fun e => Or.inl).andThen fun C hC => ?_
    have hrun := hstores C hC
    rw [StoresDefaults, ← hC.point] at hrun
    exact hrun
  | some xs =>
    refine hpoint.andThen fun C hC => ?_
    have hrun := hstores C hC
    rw [StoresDefaults, ← hC.point] at hrun
    refine hrun.imp fun C' hC' => ⟨hC'.point, hC.frame.trans hC'.frame hb hb', ?_⟩
    have hsets := hC'.memory
    rw [hC.memory] at hsets
    exact hsets.of_field

end StoresDefaults
end Machine

/-! ### Names of the unit -/

/-- The names stand for these variables of the unit: no variable of the function hides them. -/
def Context.Reads (c : Context) (G : String → GlobalSymbol) (names : List String) : Prop :=
  ∀ name ∈ names, c.localVar? name = none ∧ c.global? name = some (G name)

/-- The variables are integers with the values that `ρ` gives, in memory apart from a range. -/
def Lends (i : Image) (m : Memory) (G : String → GlobalSymbol) (ρ : String → IntValue)
    (names : List String) (a count : Nat) : Prop :=
  ∀ name ∈ names, (G name).type.strip = .scalar (ρ name).kind ∧ ∃ address,
    i.globalAddress? (G name).linkName = some address ∧ Holds m address (ρ name) ∧
      Apart address (ρ name).kind.bytes a count

section Names

variable {c c' : Context} {b b' : FunctionBuilder} {G : String → GlobalSymbol}
  {names names' : List String} {i : Image} {m m' : Memory} {ρ : String → IntValue} {a count : Nat}

theorem Context.Reads.subset (h : c.Reads G names) (hsub : ∀ name ∈ names', name ∈ names) :
    c.Reads G names' :=
  fun name hname => h name (hsub name hname)

theorem Follows.symbols (h : Follows c c' b b') : c'.symbols = c.symbols := by
  obtain ⟨F, scope, hF, hb, rfl, hplaces⟩ := h.state
  rfl

/-- Emission declares no variables. -/
theorem Follows.reads (h : Follows c c' b b') (hreads : c.Reads G names) : c'.Reads G names := by
  obtain ⟨F, scope, hF, hb, rfl, hplaces⟩ := h.state
  intro name hname
  obtain ⟨hlocal, hglobal⟩ := hreads name hname
  refine ⟨?_, hglobal⟩
  have hscope := Scope.map_lookup scope name
  rw [hplaces, ← Scope.map_lookup] at hscope
  simp only [Context.localVar?, hF, Option.bind_some] at hlocal
  simpa [Context.localVar?, Context.function_advance hF, hlocal] using hscope

/-- The place of a variable of the unit. -/
theorem Context.Reads.place (h : c.Reads G names) {name : String} (hname : name ∈ names) {k : Scalar}
    (htype : (G name).type.strip = .scalar k) :
    ∃ type, c.place? name = some ⟨type, .global (G name).linkName k.machineType⟩ ∧
      type.strip = .scalar k := by
  obtain ⟨hlocal, hglobal⟩ := h name hname
  have hnone : (c.function.bind fun f => findPlace f.scope.places name) = none := by
    cases hfunction : c.function with
    | none => rfl
    | some F =>
      rw [Option.bind_some, ← Scope.map_lookup]
      simp only [Context.localVar?, hfunction, Option.bind_some] at hlocal
      rw [hlocal]
      rfl
  unfold Context.place?
  rw [hnone, Option.none_or, Context.globalPlace?, hglobal, Option.bind_some,
    SourceType.lower_of_strip htype]
  refine ⟨_, rfl, ?_⟩
  rw [CompileM.strip_qualified]
  exact htype

theorem Context.Reads.typed (h : c.Reads G names)
    (htypes : ∀ name ∈ names, (G name).type.isInteger = true) : Typed c b names := by
  intro name hname
  obtain ⟨k, htype, hk⟩ := SourceType.scalar_of_isInteger (htypes name hname)
  obtain ⟨type, hplace, hstrip⟩ := h.place hname htype
  exact ⟨_, k, hplace, hstrip, hk, trivial⟩

theorem Context.Reads.provides (h : c.Reads G names) {A : Activation} (frame : Machine.Frame)
    (hlends : Lends A.image m G ρ names a count) : Provides c A frame m ρ names := by
  intro name hname
  obtain ⟨htype, address, haddress, hholds, -⟩ := hlends name hname
  obtain ⟨type, hplace, hstrip⟩ := h.place hname htype
  refine ⟨_, hplace, hstrip, address, ?_, hholds⟩
  simp only [Image.eval, haddress]

namespace Lends

theorem subset (h : Lends i m G ρ names a count) (hsub : ∀ name ∈ names', name ∈ names) :
    Lends i m G ρ names' a count :=
  fun name hname => h name (hsub name hname)

theorem inside (h : Lends i m G ρ names a count) {offset count' : Nat} (hle : offset + count' ≤ count) :
    Lends i m G ρ names (a + offset) count' := by
  intro name hname
  obtain ⟨htype, address, haddress, hholds, hapart⟩ := h name hname
  refine ⟨htype, address, haddress, hholds, ?_⟩
  rcases hapart with hbefore | hbehind
  · exact Or.inl (by omega)
  · exact Or.inr (by omega)

/-- Defaults that are stored within the range leave the variables alone. -/
theorem sets (h : Lends i m G ρ names a count) {ds : List StoredDefault} {xs : List IntValue}
    (hsets : Sets m m' a ds xs) (hds : ∀ d ∈ ds, d.offset + d.kind.bytes ≤ count) :
    Lends i m' G ρ names a count := by
  intro name hname
  obtain ⟨htype, address, haddress, hholds, hapart⟩ := h name hname
  refine ⟨htype, address, haddress, hsets.holds hholds fun d hd => ?_, hapart⟩
  have := hds d hd
  rcases hapart with hbefore | hbehind
  · exact Or.inl (by omega)
  · exact Or.inr (by omega)

end Lends
end Names

/-! ### Emission -/

/-- A value of a struct with room for its defaults, where the variables that they mention have values. -/
structure Rooms (A : Activation) (G : String → GlobalSymbol) (ρ : String → IntValue)
    (frame : Machine.Frame) (s : State) (slot : Operand) (struct : IrType) (names : List String)
    (a : Nat) : Prop where
  slot : Carries A.image frame slot (.ptr a) (.ptr struct)
  base : memoryBase ≤ a
  inside : a + layout.sizeOf struct ≤ s.memory.size
  address : a + layout.sizeOf struct ≤ maxU64
  lends : Lends A.image s.memory G ρ names a (layout.sizeOf struct)

/-- An action emitted code from `b` to `b'` that stores defaults of the value behind the slot. -/
structure EmitsDefaults (c c' : Context) (b b' : FunctionBuilder) (slot : Operand) (struct : IrType)
    (G : String → GlobalSymbol) (ds : List StoredDefault) : Prop where
  follows : Follows c c' b b'
  stores : ∀ A frame s a ρ, A.Has b' → Rooms A G ρ frame s slot struct (StoredDefault.names ds) a →
    StoresDefaults A b b' frame s a ds (StoredDefault.values ρ ds)

namespace EmitsDefaults

variable {c c₁ c' : Context} {b b₁ b' : FunctionBuilder} {slot : Operand} {struct : IrType}
  {G : String → GlobalSymbol} {ds ds' : List StoredDefault}

theorem nil (hr : Ready c b) : EmitsDefaults c c b b slot struct G [] :=
  ⟨.refl hr, fun _ _ _ _ _ _ _ => .nil⟩

theorem append {s : SymbolTables} {t : Tree} {placed : List PlacedField}
    (h : EmitsDefaults c c₁ b b₁ slot struct G ds) (h' : EmitsDefaults c₁ c' b₁ b' slot struct G ds')
    (hslot : slot.Below b.nextValue) (hds : s.Defaults t placed (ds ++ ds'))
    (hlaid : s.LaidOut struct placed) : EmitsDefaults c c' b b' slot struct G (ds ++ ds') := by
  have hapart := (List.pairwise_append.mp (hds.apart hlaid)).2.2
  have hinside (d : StoredDefault) (hd : d ∈ ds) : d.offset + d.kind.bytes ≤ layout.sizeOf struct :=
    hds.le_sizeOf hlaid (List.mem_append_left _ hd)
  refine ⟨h.follows.trans h'.follows, fun A frame s a ρ hA hrooms => ?_⟩
  have hA₁ := hA.of_continues h'.follows.continues
  have hle := h.follows.continues.value
  have hle' := h'.follows.continues.value
  have hlends := hrooms.lends
  rw [StoredDefault.names_append] at hlends
  rw [StoredDefault.values_append]
  have hrooms₁ : Rooms A G ρ frame s slot struct (StoredDefault.names ds) a :=
    ⟨hrooms.slot, hrooms.base, hrooms.inside, hrooms.address,
      hlends.subset fun name => List.mem_append_left _⟩
  refine (h.stores A frame s a ρ hA₁ hrooms₁).append hle hle' hapart fun xs C hC => ?_
  refine h'.stores A C.frame C.state a ρ hA ⟨hC.frame.carries hrooms.slot hslot, hrooms.base,
    hrooms.inside.trans hC.memory.size, hrooms.address, ?_⟩
  exact (hlends.sets hC.memory hinside).subset fun name => List.mem_append_right _

end EmitsDefaults

namespace CompileM

variable {p : Performer} {c : Context} {b : FunctionBuilder} {d : Nat} {location : Location}
  {slot : Operand} {struct : IrType} {G : String → GlobalSymbol} {s : SymbolTables} {t : Tree}
  {placed rest : List PlacedField} {ds : List StoredDefault} {f : PlacedField}

/-- The address of a field whose type has a machine type. -/
theorem fieldPlace_spec {field : FieldSymbol} {machine : IrType} (slot : Operand) (location : Location)
    (hr : Ready c b)
    (hlower : c.symbols.lower field.type = .ok machine) :
    ∃ c', fieldPlace slot field location p c = .ok ⟨field.type, .register b.nextValue⟩ c' ∧
      Follows c c' b (b.addressField slot field.index machine) := by
  have hrun : lower field.type location p c = .ok machine c := by
    unfold lower
    rw [bind_of_eq_ok (get_apply p c), hlower]
    rfl
  have hvoid : (IrType.ptr machine).isVoid = false := rfl
  obtain ⟨c', hpush, hfollows⟩ := build_push (p := p) hr
    (.elementPtr slot [constI32 0, constI32 field.index] true) hvoid
  refine ⟨c', ?_, hfollows⟩
  unfold fieldPlace
  rw [bind_of_eq_ok hrun]
  exact map_eq_ok.mpr ⟨_, hpush, rfl⟩

/-- The number of a default, converted to the kind of its field. -/
theorem emitValue_spec {e : IntExpr} {node : NodeId} {k : Scalar} {type : SourceType}
    (location : Location) (hr : Ready c b)
    (hat : e.At c.tree node) (ht : Typed c b e.vars) (hd : e.height ≤ d) (hk : k.isInteger = true)
    (htype : type.strip = .scalar k) :
    ∃ value c' b', (do coerce (← perform (.emitExpr node)) type location) (performWithin d) c =
        .ok value c' ∧
      Emits c c' b b' value.operand k fun A frame s v => memoryBase ≤ s.memory.size ∧
        ∃ ρ, Provides c A frame s.memory ρ e.vars ∧ v = (e.eval ρ).map (·.convert k) := by
  obtain ⟨⟨_, operand⟩, c₁, hexpr⟩ := emitExpr_succeeds e hat hr ht hd
  obtain ⟨k₁, b₁, rfl, e₁⟩ := emitExpr_spec e hat hr ht hexpr
  have hsucceeds : Succeeds (coerce ⟨.scalar k₁, operand⟩ type location) (performWithin d) c₁ :=
    coerce_succeeds e₁.follows.ready e₁.kind hk htype
  obtain ⟨value, c₂, hcoerce⟩ := hsucceeds
  obtain ⟨-, b₂, e₂⟩ := coerce_spec e₁.follows.ready e₁.kind hk htype e₁.below hcoerce
  refine ⟨value, c₂, b₂, (bind_of_eq_ok hexpr).trans hcoerce, e₁.andThen e₂ ?_⟩
  rintro A frame s v ⟨hbase, ρ, hρ, rfl⟩
  refine ⟨_, fun x => some (x.convert k), ⟨hbase, ρ, hρ, rfl⟩, ?_, ?_⟩
  · cases e.eval ρ <;> rfl
  · rintro x C - hC
    exact ⟨x, hC.value, hC.kind, rfl⟩

/-- A field with a default of its own. -/
theorem applyDefault_own {node : NodeId} {k : Scalar} {e : IntExpr} (hlaid : s.LaidOut struct (f :: rest))
    (hdefault : f.field.default = some node) (htype : f.field.type.strip = .scalar k)
    (hk : k.isInteger = true) (hat : e.At c.tree node) (hd : e.height ≤ d) (hr : Ready c b)
    (hreads : c.Reads G e.vars) (htypes : ∀ name ∈ e.vars, (G name).type.isInteger = true) :
    ∃ c' b', applyDefault slot location f.field (performWithin d) c = .ok () c' ∧
      EmitsDefaults c c' b b' slot struct G [⟨f.offset, k, e⟩] := by
  obtain ⟨c₁, hplace, hfollows₁⟩ := fieldPlace_spec (p := performWithin d) slot location hr
    (SourceType.lower_of_strip htype c.symbols)
  rw [← hfollows₁.tree] at hat
  have hreads₁ := hfollows₁.reads hreads
  obtain ⟨value, c₂, b₂, hvalue, e₂⟩ := emitValue_spec location hfollows₁.ready hat
    (hreads₁.typed htypes) hd hk htype
  obtain ⟨c₃, hstore, hfollows₃⟩ := build_store (p := performWithin d) e₂.follows.ready value.operand
    (.register b.nextValue)
  refine ⟨c₃, _, ?_, (hfollows₁.trans e₂.follows).trans hfollows₃, ?_⟩
  · obtain ⟨r, c', hexpr, hcoerce⟩ := bind_eq_ok.mp hvalue
    unfold applyDefault
    simp only [hdefault]
    rw [bind_of_eq_ok hplace, bind_of_eq_ok hexpr, bind_of_eq_ok hcoerce]
    exact hstore
  · intro A frame st a ρ hA hrooms
    have hA₂ := hA.of_continues hfollows₃.continues
    have hinside := hlaid.inside List.mem_cons_self
    rw [SymbolTables.sizeOf_of_lowered (hlaid.lowered f List.mem_cons_self) htype] at hinside
    have hbase := hrooms.base
    have hmemory := hrooms.inside
    have haddress : a + f.offset ≤ maxU64 := by
      have := hrooms.address
      omega
    have hlends := hrooms.lends
    rw [StoredDefault.names_singleton] at hlends
    rw [StoredDefault.values_singleton]
    refine .of_computes (leads_fieldPtr k.machineType hr.sound (hA₂.of_continues e₂.follows.continues)
      hrooms.slot hlaid.shape (hlaid.index f List.mem_cons_self) (hlaid.piece f List.mem_cons_self)
      haddress) (fun C hC => ?_) (Nat.lt_succ_self _) e₂.follows.continues.value
      e₂.follows.continues.sound hA ⟨by omega, by simp only; omega⟩
    rw [← hC.memory] at hlends
    refine e₂.computes A C.frame C.state _ hA₂ ⟨?_, ρ, hreads₁.provides C.frame hlends, rfl⟩
    rw [hC.memory]
    omega

/-- The fields of a type that is laid out. -/
theorem fieldsOf_apply {type : SourceType} (hplaces : c.symbols.Places type placed) :
    fieldsOf type location p c = .ok (placed.map (·.field)) c := by
  cases hplaces with
  | bare hname =>
    unfold fieldsOf
    rw [hname]
    rfl
  | @struct name a machine hname ha hnumbers hcount hlower =>
    have hchecked : ensureChecked name location p c = .ok () c := by
      have hcontains : c.symbols.aggregates.contains name = true := by
        rw [Table.contains, ha]
        rfl
      unfold ensureChecked
      rw [bind_of_eq_ok (get_apply p c), if_pos hcontains]
      rfl
    obtain ⟨machines, -, -, hlength⟩ := SymbolTables.exists_struct hname ha hlower
    rw [SymbolTables.map_field_placedFields hlength]
    unfold fieldsOf
    rw [hname]
    simp only
    rw [bind_of_eq_ok hchecked, bind_of_eq_ok (get_apply p c), ha]
    rfl

theorem applyDefaults_apply {type : SourceType} (hplaces : c.symbols.Places type placed) (skipped : Nat) :
    applyDefaults type slot skipped location p c =
      ((placed.drop skipped).map (·.field)).forM (applyDefault slot location) p c := by
  rw [List.map_drop]
  exact bind_of_eq_ok (fieldsOf_apply hplaces)

theorem needsDefaults_apply {type : SourceType} {r : Bool} (hplaces : c.symbols.Places type placed)
    (h : anyDefault location (placed.map (·.field)) p c = .ok r c) :
    needsDefaults type location p c = .ok r c := by
  unfold needsDefaults
  rw [bind_of_eq_ok (fieldsOf_apply hplaces)]
  exact h

/-- A field needs its defaults stored exactly if it has some. -/
theorem anyDefault_spec (h : s.Defaults t placed ds) :
    ∃ depth, ∀ d ≥ depth, ∀ (c : Context) (location : Location), c.symbols = s →
      anyDefault location (placed.map (·.field)) (performWithin d) c = .ok (!ds.isEmpty) c := by
  induction h with
  | nil => exact ⟨0, fun d _ c location _ => rfl⟩
  | @own f node k e rest ds hdefault htype hk hat hrest ih =>
    refine ⟨0, fun d _ c location _ => ?_⟩
    rw [List.map_cons, anyDefault, hdefault]
    rfl
  | @inner f placed rest ds ds' hdefault hplaces hinner hrest ihinner ihrest =>
    obtain ⟨n, hn⟩ := ihinner
    obtain ⟨n', hn'⟩ := ihrest
    refine ⟨max (n + 1) n', fun d hd c location hc => ?_⟩
    obtain ⟨d, rfl⟩ := Nat.exists_eq_add_of_le' (show 1 ≤ d by omega)
    subst hc
    have hneeds : perform (.needsDefaults f.field.type location) (performWithin (d + 1)) c =
        .ok (!ds.isEmpty) c :=
      needsDefaults_apply hplaces (hn d (by omega) c location rfl)
    rw [List.map_cons, anyDefault, hdefault]
    simp only [Option.isSome_none, Bool.false_eq_true, if_false]
    rw [bind_of_eq_ok hneeds]
    cases ds with
    | nil => exact hn' (d + 1) (by omega) c location rfl
    | cons d ds => rfl

/-- A field without a default whose type has none. -/
theorem applyDefault_bare (hdefault : f.field.default = none)
    (hneeds : perform (.needsDefaults f.field.type location) p c = .ok false c) :
    applyDefault slot location f.field p c = .ok () c := by
  unfold applyDefault
  simp only [hdefault]
  rw [bind_of_eq_ok hneeds]
  rfl

/-- A field that is an aggregate with defaults. -/
theorem applyDefault_inner {machine : IrType} (hlaid : s.LaidOut struct (f :: rest))
    (hdefault : f.field.default = none) (hr : Ready c b)
    (hlower : c.symbols.lower f.field.type = .ok machine)
    (hsize : layout.sizeOf machine = layout.sizeOf f.machine)
    (hneeds : perform (.needsDefaults f.field.type location) p c = .ok true c)
    (hinner : ∀ {c₁ b₁}, Follows c c₁ b b₁ → b.nextValue < b₁.nextValue → ∃ c' b',
      perform (.applyDefaults f.field.type (.register b.nextValue) 0 location) p c₁ = .ok () c' ∧
        EmitsDefaults c₁ c' b₁ b' (.register b.nextValue) machine G ds) :
    ∃ c' b', applyDefault slot location f.field p c = .ok () c' ∧
      EmitsDefaults c c' b b' slot struct G (ds.map (.behind f.offset)) := by
  obtain ⟨c₁, hplace, hfollows⟩ := fieldPlace_spec (p := p) slot location hr hlower
  obtain ⟨c₂, b₂, happly, hemits⟩ := hinner hfollows (Nat.lt_succ_self _)
  refine ⟨c₂, b₂, ?_, hfollows.trans hemits.follows, fun A frame st a ρ hA hrooms => ?_⟩
  · unfold applyDefault
    simp only [hdefault]
    rw [bind_of_eq_ok hneeds]
    simp only [if_true]
    rw [bind_of_eq_ok hplace]
    exact happly
  · have hinside := hlaid.inside List.mem_cons_self
    have haddress : a + f.offset ≤ maxU64 := by
      have := hrooms.address
      omega
    rw [StoredDefault.values_behind]
    refine .of_field (leads_fieldPtr machine hr.sound (hA.of_continues hemits.follows.continues)
      hrooms.slot hlaid.shape (hlaid.index f List.mem_cons_self) (hlaid.piece f List.mem_cons_self)
      haddress) (fun C hC => ?_) (Nat.le_succ _) hemits.follows.continues.value
    have hlends := hrooms.lends
    rw [StoredDefault.names_behind] at hlends
    have hbase := hrooms.base
    have hmemory := hrooms.inside
    have hlimit := hrooms.address
    refine hemits.stores A C.frame C.state (a + f.offset) ρ hA ⟨hC.address, ?_, ?_, ?_, ?_⟩
    · omega
    · rw [hC.memory]
      omega
    · omega
    · rw [hC.memory]
      exact hlends.inside (hsize ▸ hinside)

/-- The defaults of fields that are laid out are emitted one after the other.  How deep jobs nest depends on
the defaults alone. -/
theorem applyDefaults_fields (h : s.Defaults t placed ds)
    (htypes : ∀ name ∈ StoredDefault.names ds, (G name).type.isInteger = true) :
    ∃ depth, ∀ d ≥ depth, ∀ {c : Context} {b : FunctionBuilder} {struct : IrType} (slot : Operand)
      (location : Location), s.LaidOut struct placed → c.symbols = s → c.tree = t → Ready c b →
      c.Reads G (StoredDefault.names ds) → slot.Below b.nextValue →
      ∃ c' b', (placed.map (·.field)).forM (applyDefault slot location) (performWithin d) c = .ok () c' ∧
        EmitsDefaults c c' b b' slot struct G ds := by
  induction h with
  | nil => exact ⟨0, fun d _ c b struct slot location _ _ _ hr _ _ => ⟨c, b, rfl, .nil hr⟩⟩
  | @own f node k e rest ds hdefault htype hk hat hrest ih =>
    have hall : s.Defaults t (f :: rest) ([⟨f.offset, k, e⟩] ++ ds) := .own hdefault htype hk hat hrest
    obtain ⟨n, hn⟩ := ih fun name hname => htypes name (List.mem_append_right _ hname)
    refine ⟨max e.height n, fun d hd c b struct slot location hlaid hc ht hr hreads hslot => ?_⟩
    subst ht
    obtain ⟨c₁, b₁, hfirst, e₁⟩ := applyDefault_own hlaid hdefault htype hk hat
      ((le_max_left _ _).trans hd) hr (hreads.subset fun name => List.mem_append_left _)
      fun name hname => htypes name (List.mem_append_left _ hname)
    obtain ⟨c₂, b₂, hnext, e₂⟩ := hn d ((le_max_right _ _).trans hd) slot location hlaid.tail
      (e₁.follows.symbols.trans hc) e₁.follows.tree e₁.follows.ready
      (e₁.follows.reads (hreads.subset fun name => List.mem_append_right _))
      (hslot.mono e₁.follows.continues.value)
    exact ⟨c₂, b₂, (bind_of_eq_ok hfirst).trans hnext, e₁.append e₂ hslot hall hlaid⟩
  | @inner f placed rest ds ds' hdefault hplaces hinner hrest ihinner ihrest =>
    have hall : s.Defaults t (f :: rest) (ds.map (.behind f.offset) ++ ds') :=
      .inner hdefault hplaces hinner hrest
    rw [StoredDefault.names_append, StoredDefault.names_behind] at htypes
    obtain ⟨n, hn⟩ := anyDefault_spec hinner
    obtain ⟨n₁, hn₁⟩ := ihinner fun name hname => htypes name (List.mem_append_left _ hname)
    obtain ⟨n₂, hn₂⟩ := ihrest fun name hname => htypes name (List.mem_append_right _ hname)
    refine ⟨max (max n n₁ + 1) n₂, fun d hd c b struct slot location hlaid hc ht hr hreads hslot => ?_⟩
    rw [StoredDefault.names_append, StoredDefault.names_behind] at hreads
    obtain ⟨d, rfl⟩ := Nat.exists_eq_add_of_le' (show 1 ≤ d by omega)
    subst hc
    have hneeds : perform (.needsDefaults f.field.type location) (performWithin (d + 1)) c =
        .ok (!ds.isEmpty) c :=
      needsDefaults_apply hplaces (hn d (by omega) c location rfl)
    have hfirst : ∃ c₁ b₁, applyDefault slot location f.field (performWithin (d + 1)) c = .ok () c₁ ∧
        EmitsDefaults c c₁ b b₁ slot struct G (ds.map (.behind f.offset)) := by
      cases ds with
      | nil => exact ⟨c, b, applyDefault_bare hdefault hneeds, .nil hr⟩
      | cons d₀ ds =>
        have hne : placed ≠ [] := by
          rintro rfl
          cases hinner.eq_nil
        obtain ⟨machine, hlower, hlaid', hsize⟩ := hlaid.inner hplaces hne
        refine applyDefault_inner hlaid hdefault hr hlower hsize hneeds fun {c₁ b₁} hfollows hslot' => ?_
        have hplaces₁ : c₁.symbols.Places f.field.type placed := by
          rw [hfollows.symbols]
          exact hplaces
        obtain ⟨c₂, b₂, hrun, hemits⟩ := hn₁ d (by omega) (.register b.nextValue) location hlaid'
          hfollows.symbols (hfollows.tree.trans ht) hfollows.ready
          (hfollows.reads (hreads.subset fun name => List.mem_append_left _)) hslot'
        exact ⟨c₂, b₂, (applyDefaults_apply hplaces₁ 0).trans hrun, hemits⟩
    obtain ⟨c₁, b₁, hfirst, e₁⟩ := hfirst
    obtain ⟨c₂, b₂, hnext, e₂⟩ := hn₂ (d + 1) (by omega) slot location hlaid.tail e₁.follows.symbols
      (e₁.follows.tree.trans ht) e₁.follows.ready
      (e₁.follows.reads (hreads.subset fun name => List.mem_append_right _))
      (hslot.mono e₁.follows.continues.value)
    exact ⟨c₂, b₂, (bind_of_eq_ok hfirst).trans hnext, e₁.append e₂ hslot hall hlaid⟩

/-- The defaults of a type are emitted in every function in which their names lead to the same variables
of the unit, and what is stored depends on the values of these variables alone: not on the parameters,
the other local names, the bindings or the namespaces of the function. -/
theorem applyDefaults_hygienic {type : SourceType} {machine : IrType} {skipped : Nat}
    (hplaces : s.Places type placed) (hlower : s.lower type = .ok machine)
    (hsize : layout.sizeOf machine < maxU64) (hds : s.Defaults t (placed.drop skipped) ds)
    (htypes : ∀ name ∈ StoredDefault.names ds, (G name).type.isInteger = true) :
    ∃ depth, ∀ d ≥ depth, ∀ (c : Context) (b : FunctionBuilder) (slot : Operand) (location : Location),
      c.symbols = s → c.tree = t → Ready c b → c.Reads G (StoredDefault.names ds) →
      slot.Below b.nextValue →
      ∃ c' b', applyDefaults type slot skipped location (performWithin d) c = .ok () c' ∧
        EmitsDefaults c c' b b' slot machine G ds := by
  obtain ⟨n, hn⟩ := applyDefaults_fields hds htypes
  refine ⟨n, fun d hd c b slot location hc ht hr hreads hslot => ?_⟩
  subst hc
  rw [applyDefaults_apply hplaces]
  cases hplaces with
  | bare hname =>
    rw [List.drop_nil] at hds ⊢
    obtain rfl := hds.eq_nil
    exact ⟨c, b, rfl, .nil hr⟩
  | @struct name a machine' hname ha hnumbers hcount hlower' =>
    cases hlower.symm.trans hlower'
    have hlaid := SymbolTables.laidOut_placedFields hname ha hnumbers hcount hlower hsize
    exact hn d hd slot location (hlaid.drop skipped) rfl ht hr hreads hslot

/-- An aggregate whose field starts with the variable `limit`. -/
def holderSymbol : AggregateSymbol where
  decl := ⟨1⟩
  name := "Holder"
  fields := [{ name := "n", type := .scalar .int, index := 0, default := some ⟨0⟩ }]
  base := none
  isInstance := false
  space := []
  subst := {}

def holderStruct : IrType := .struct [.i32] false (some "Holder")

/-- A function in some namespaces and with some variables. -/
def holderContext (space : List String) (vars : List LocalVar) : Context where
  tree := { nodes := #[⟨.ident "limit" [], default⟩] }
  symbols := { aggregates := ⟨[("Holder", holderSymbol)]⟩, globals := ⟨[("limit", limitSymbol)]⟩ }
  space := space
  function :=
    some { FunctionState.entry default {} (.scalar .int) false with scope := ⟨[{ vars := vars }]⟩ }

/-- The same number is stored in two functions of other namespaces and variables. -/
theorem applyDefaults_holder : ∃ d, ∀ c ∈ [holderContext [] [],
      holderContext ["inner"] [{ name := "other", type := .long, slot := .argument 0, span := default }]],
    ∃ c' b', applyDefaults (.named "Holder") (.argument 1) 0 default (performWithin d) c = .ok () c' ∧
      EmitsDefaults c c' (FunctionState.entry default {} (.scalar .int) false).builder b' (.argument 1)
        holderStruct (fun _ => limitSymbol) [⟨0, .int, .var "limit"⟩] := by
  have hplaces : (holderContext [] []).symbols.Places (.named "Holder")
      (placedFields holderStruct holderSymbol.fields) := .struct rfl rfl rfl (by decide) rfl
  have hds : (holderContext [] []).symbols.Defaults (holderContext [] []).tree
      ((placedFields holderStruct holderSymbol.fields).drop 0) [⟨0, .int, .var "limit"⟩] :=
    .own rfl rfl rfl ⟨default, rfl⟩ .nil
  obtain ⟨d, hd⟩ := applyDefaults_hygienic (G := fun _ => limitSymbol) hplaces rfl (by decide) hds
    fun _ _ => rfl
  have hready (space : List String) (vars : List LocalVar) : Ready (holderContext space vars)
      (FunctionState.entry default {} (.scalar .int) false).builder :=
    ⟨⟨_, rfl, rfl⟩, (FunctionBuilder.sound_new rfl {}).addBlock "exit",
      (FunctionState.open_entry rfl {} (.scalar .int) false).1⟩
  refine ⟨d, fun c hc => ?_⟩
  obtain rfl | hc := List.mem_cons.mp hc
  · refine hd d (le_refl _) _ _ _ _ rfl rfl (hready _ _) (fun name hname => ?_) trivial
    obtain rfl := List.mem_singleton.mp hname
    exact ⟨rfl, rfl⟩
  · obtain rfl := List.mem_singleton.mp hc
    refine hd d (le_refl _) _ _ _ _ rfl rfl (hready _ _) (fun name hname => ?_) trivial
    obtain rfl := List.mem_singleton.mp hname
    exact ⟨rfl, rfl⟩

end CompileM
end UnitCompiler
